import JobQueue.Lifecycle.Invariant
import JobQueue.Lifecycle.Pending
import JobQueue.Lifecycle.Transitions
import JobQueue.Service.Listing
import Mathlib.Logic.Relation

/-!
# Job endpoints

What clients see of the jobs: the responses of the endpoints, and the requests
as turns of a machine over the table.  A request takes one turn for each of its
database statements; other requests and the rest of the system take their turns
in between.  Whatever two responses say about one job, by whatever endpoints
and to whichever clients, fits together in the order in which they were read.
-/

namespace JobQueue

open Support

/-! ## Responses -/

/-- Public job representation.  Lease and worker ownership stay internal. -/
structure JobResponse where
  id : UUID
  type : String
  payload : Jsonb
  status : JobStatus
  priority : ℤ
  attemptCount : ℤ
  maxAttempts : ℤ
  progress : ℤ
  result : Option Jsonb
  error : Option String
  scheduledAt : Option Time
  createdAt : Time
  startedAt : Option Time
  completedAt : Option Time
deriving DecidableEq

def JobResponse.modelValidate (job : Job) : JobResponse where
  id := job.id
  type := job.type
  payload := job.payload
  status := job.status
  priority := job.priority
  attemptCount := job.attemptCount
  maxAttempts := job.maxAttempts
  progress := job.progress
  result := job.result
  error := job.error
  scheduledAt := job.scheduledAt
  createdAt := job.createdAt
  startedAt := job.startedAt
  completedAt := job.completedAt

structure JobListResponse where
  items : List JobResponse
  total : ℕ
  limit : ℕ
  offset : ℕ
deriving DecidableEq

inductive Body
  | job (response : JobResponse)
  | jobs (response : JobListResponse)
  | detail (text : String)
  | internalServerError
deriving DecidableEq

structure Response where
  statusCode : ℕ
  body : Body
deriving DecidableEq

def Response.shown (response : Response) : List JobResponse :=
  match response.body with
  | .job job => [job]
  | .jobs page => page.items
  | _ => []

/-! ## Endpoints -/

structure IdempotencyKey where
  value : String
  length_range : 1 ≤ value.length ∧ value.length ≤ 255

def defaultPageSize : ℕ := 50

def maxPageSize : ℕ := 100

/-- The driver sends `OFFSET` as a `bigint`, and raises beyond its range. -/
def offsetBound : ℕ := 2 ^ 63

structure PageQuery where
  status : Option JobStatus := none
  jobType : Option JobType := none
  limit : ℕ := defaultPageSize
  offset : ℕ := 0
  limit_range : 1 ≤ limit ∧ limit ≤ maxPageSize

namespace Api

/-- An exception no endpoint handles. -/
def internalServerError : Response := ⟨500, .internalServerError⟩

def jobNotFound : Response := ⟨404, .detail "job not found"⟩

/-- `POST /jobs`, for the job `submit_job` returns and whether it was newly
created. -/
def createJob (job : Job) (created : Bool) : Response :=
  ⟨if created then 201 else 200, .job (.modelValidate job)⟩

/-- `GET /jobs`. -/
def listJobs (query : PageQuery) (jobs : List Job) (total : ℕ) : Response :=
  if query.offset < offsetBound then
    ⟨200, .jobs
      { items := jobs.map .modelValidate
        total := total
        limit := query.limit
        offset := query.offset }⟩
  else internalServerError

/-- `GET /jobs/\x7bjob_id\x7d`. -/
def getJob : Option Job → Response
  | none => jobNotFound
  | some job => ⟨200, .job (.modelValidate job)⟩

/-- `_translate_mutation`; other exceptions are not caught. -/
def translateMutation : ServiceError → Response
  | .jobNotFound _ => jobNotFound
  | .jobConflict _ action status =>
      ⟨409, .detail ("cannot " ++ action ++ " a job that is " ++ status)⟩
  | _ => internalServerError

/-- `POST /jobs/\x7bjob_id\x7d/cancel` and `../retry`. -/
def mutateJob : Except ServiceError Job → Response
  | .ok job => ⟨200, .job (.modelValidate job)⟩
  | .error e => translateMutation e

end Api

/-! ## Requests by turns -/

/-- One statement of a request, or an operation of the rest of the system.  A
list request counts before it reads its page, so the total is given. -/
inductive Turn
  | lookUp (key : IdempotencyKey) (now : Time)
  | insert (clock : SubmitClock) (id : UUID) (request : JobCreateRequest)
      (key : Option IdempotencyKey)
  | getJob (jobId : UUID)
  | listJobs (query : PageQuery) (total : ℕ)
  | cancel (jobId : UUID)
  | explainCancel (jobId : UUID)
  | retry (jobId : UUID)
  | explainRetry (jobId : UUID)
  | work (op : Op)

/-- What a turn does to the table, and the response if it ends a request. -/
def api (settings : Settings) : Machine Jobs Turn (Option Response) where
  step t
    | .lookUp key now =>
        (t, (findActiveByKey t key.value now).map fun job =>
          Api.createJob job false)
    | .insert clock id request key =>
        match insertJob t clock id request (key.map IdempotencyKey.value) with
        | .ok (t', s) => (t', some (Api.createJob s.job s.created))
        | .error _ => (t, some Api.internalServerError)
    | .getJob jobId => (t, some (Api.getJob (getJob t jobId)))
    | .listJobs query total =>
        (t, some (Api.listJobs query
          (JobQueue.listJobs t t query.status query.jobType query.limit
            query.offset).1 total))
    | .cancel jobId =>
        match cancelRow t jobId with
        | .ok (t', some job) => (t', some (Api.mutateJob (.ok job)))
        | .ok (t', none) => (t', none)
        | .error e => (t, some (Api.mutateJob (.error e)))
    | .explainCancel jobId =>
        (t, some (Api.mutateJob (cancelUnmatched jobId (getJob t jobId))))
    | .retry jobId =>
        match retryRow t jobId with
        | .ok (t', some job) => (t', some (Api.mutateJob (.ok job)))
        | .ok (t', none) => (t', none)
        | .error e => (t, some (Api.mutateJob (.error e)))
    | .explainRetry jobId =>
        (t, some (Api.mutateJob (.error
          (retryUnmatched jobId (getJob t jobId)))))
    | .work op => (((service settings).step t op).1, none)

def shown : Option Response → List JobResponse
  | some response => response.shown
  | none => []

/-! ## Every turn moves rows along their lifecycle -/

theorem find?_of_findActiveByKey {t : Jobs} {key : String} {now : Time}
    {job : Job} (h : findActiveByKey t key now = some job) :
    t.find? job.id = some job :=
  KeyedTable.find?_of_mem
    (KeyedTable.mem_select.mp (List.mem_of_head? h)).1

theorem api_step_path (settings : Settings) (t : Jobs) (turn : Turn)
    (id : UUID) : ∃ cs,
      RowPath (t.find? id) cs (((api settings).step t turn).1.find? id) := by
  cases turn with
  | lookUp key now => exact ⟨[], Trail.nil⟩
  | getJob jobId => exact ⟨[], Trail.nil⟩
  | listJobs query total => exact ⟨[], Trail.nil⟩
  | explainCancel jobId => exact ⟨[], Trail.nil⟩
  | explainRetry jobId => exact ⟨[], Trail.nil⟩
  | work op => exact ⟨_, service_step_path settings t op id⟩
  | insert clock jobId request key =>
      simp only [api]
      split
      · next t' s hinsert =>
          have hstep := service_step_path settings t
            (.insertJob clock jobId request (key.map IdempotencyKey.value)) id
          simp only [service, Op.execute, hinsert, answer, settle] at hstep
          exact ⟨_, hstep⟩
      · exact ⟨[], Trail.nil⟩
  | cancel jobId =>
      simp only [api]
      split
      · next t' job hcancel =>
          rcases cancelRow_cases hcancel with ⟨hnone, -⟩ | ⟨r, hr, -, hrw⟩
          · cases hnone
          · exact ⟨_, path_of_rewrites (c := .cancelled) hr hrw id⟩
      · next t' hcancel =>
          rcases cancelRow_cases hcancel with ⟨-, rfl, -⟩ | ⟨r, -, hsome, -⟩
          · exact ⟨[], Trail.nil⟩
          · cases hsome
      · exact ⟨[], Trail.nil⟩
  | retry jobId =>
      simp only [api]
      split
      · next t' job hretry =>
          rcases retryRow_cases hretry with ⟨hnone, -⟩ | ⟨r, hr, -, hrw⟩
          · cases hnone
          · exact ⟨_, path_of_rewrites (c := .retried) hr hrw id⟩
      · next t' hretry =>
          rcases retryRow_cases hretry with ⟨-, rfl, -⟩ | ⟨r, -, hsome, -⟩
          · exact ⟨[], Trail.nil⟩
          · cases hsome
      · exact ⟨[], Trail.nil⟩

theorem api_run_path (settings : Settings) (t : Jobs) (turns : List Turn)
    (id : UUID) : ∃ cs,
      RowPath (t.find? id) cs (((api settings).run t turns).find? id) := by
  induction turns generalizing t with
  | nil => exact ⟨[], Trail.nil⟩
  | cons turn turns ih =>
      obtain ⟨cs, hstep⟩ := api_step_path settings t turn id
      obtain ⟨ds, hrest⟩ := ih ((api settings).step t turn).1
      exact ⟨cs ++ ds, hstep.append hrest⟩

/-! ## What is shown is stored -/

/-- The job is shown as the table stores it. -/
def Displays (t : Jobs) (job : JobResponse) : Prop :=
  ∃ row, t.find? job.id = some row ∧ job = .modelValidate row

theorem displays_of_find? {t : Jobs} {id : UUID} {row : Job}
    (h : t.find? id = some row) : Displays t (.modelValidate row) := by
  rw [← KeyedTable.key_of_find?_eq_some h] at h
  exact ⟨row, h, rfl⟩

theorem shown_translateMutation (e : ServiceError) :
    (Api.translateMutation e).shown = [] := by
  cases e <;> rfl

theorem displays_of_mutateJob {t : Jobs} {result : Except ServiceError Job}
    (hresult : ∀ row, result = .ok row → ∃ id, t.find? id = some row)
    {job : JobResponse} (h : job ∈ (Api.mutateJob result).shown) :
    Displays t job := by
  cases result with
  | error e =>
      rw [Api.mutateJob, shown_translateMutation] at h
      cases h
  | ok row =>
      obtain rfl := List.mem_singleton.mp h
      obtain ⟨id, hrow⟩ := hresult row rfl
      exact displays_of_find? hrow

theorem find?_of_insertJob_lost {t t' : Jobs} {clock : SubmitClock}
    {id : UUID} {request : JobCreateRequest} {key : Option String}
    {s : Submitted} (h : insertJob t clock id request key = .ok (t', s))
    (hlost : s.created = false) : t'.find? s.job.id = some s.job := by
  obtain ⟨t₁, released, row, -, -, hcases⟩ := insertJob_eq_ok h
  rcases hcases with ⟨rfl, -⟩ | ⟨winner, rfl, rfl, hwinner⟩
  · cases hlost
  · exact find?_of_findActiveByKey hwinner

theorem find?_of_cancelUnmatched {t : Jobs} {jobId : UUID} {row : Job}
    (h : cancelUnmatched jobId (getJob t jobId) = .ok row) :
    t.find? jobId = some row := by
  unfold cancelUnmatched at h
  split at h
  · cases h
  · next existing hfound =>
      split at h
      · cases h
        exact hfound
      · cases h

/-- What a turn shows is stored when the turn ends. -/
theorem displays_of_shown {settings : Settings} {t : Jobs} {turn : Turn}
    {job : JobResponse} (h : job ∈ shown ((api settings).step t turn).2) :
    Displays ((api settings).step t turn).1 job := by
  cases turn with
  | work op => cases h
  | lookUp key now =>
      simp only [api] at h ⊢
      cases hfound : findActiveByKey t key.value now with
      | none =>
          rw [hfound] at h
          cases h
      | some row =>
          rw [hfound] at h
          obtain rfl := List.mem_singleton.mp h
          exact displays_of_find? (find?_of_findActiveByKey hfound)
  | insert clock id request key =>
      simp only [api] at h ⊢
      split at h
      · next t' s hinsert =>
          obtain rfl := List.mem_singleton.mp h
          cases hcreated : s.created with
          | true =>
              exact displays_of_find? (find?_of_insertJob hinsert hcreated)
          | false =>
              exact displays_of_find?
                (find?_of_insertJob_lost hinsert hcreated)
      · cases h
  | getJob jobId =>
      simp only [api] at h ⊢
      cases hfound : getJob t jobId with
      | none =>
          rw [hfound] at h
          cases h
      | some row =>
          rw [hfound] at h
          obtain rfl := List.mem_singleton.mp h
          exact displays_of_find? hfound
  | listJobs query total =>
      simp only [api, Api.listJobs] at h
      split at h
      · obtain ⟨row, hrow, rfl⟩ := List.mem_map.mp h
        obtain ⟨hselected, -⟩ :=
          (KeyedTable.mem_page_iff fun _ _ => Job.id_of_listKey).mp hrow
        exact displays_of_find?
          (KeyedTable.find?_of_mem (KeyedTable.mem_select.mp hselected).1)
      · cases h
  | cancel jobId =>
      rcases hcancel : cancelRow t jobId with e | ⟨t', _ | row⟩
      · simp only [api, hcancel] at h
        exact displays_of_mutateJob (fun _ hrow => by cases hrow) h
      · simp only [api, hcancel] at h
        cases h
      · simp only [api, hcancel] at h ⊢
        change job ∈ (Api.mutateJob (.ok row)).shown at h
        refine displays_of_mutateJob (fun row' hrow => ?_) h
        obtain rfl := Except.ok.inj hrow
        rcases cancelRow_cases hcancel with ⟨hnone, -⟩ | ⟨r, -, hsome, hrw⟩
        · cases hnone
        · obtain rfl := Option.some.inj hsome
          exact ⟨jobId, hrw.after⟩
  | explainCancel jobId =>
      exact displays_of_mutateJob
        (fun _ hrow => ⟨jobId, find?_of_cancelUnmatched hrow⟩) h
  | retry jobId =>
      rcases hretry : retryRow t jobId with e | ⟨t', _ | row⟩
      · simp only [api, hretry] at h
        exact displays_of_mutateJob (fun _ hrow => by cases hrow) h
      · simp only [api, hretry] at h
        cases h
      · simp only [api, hretry] at h ⊢
        change job ∈ (Api.mutateJob (.ok row)).shown at h
        refine displays_of_mutateJob (fun row' hrow => ?_) h
        obtain rfl := Except.ok.inj hrow
        rcases retryRow_cases hretry with ⟨hnone, -⟩ | ⟨r, -, hsome, hrw⟩
        · cases hnone
        · obtain rfl := Option.some.inj hsome
          exact ⟨jobId, hrw.after⟩
  | explainRetry jobId =>
      refine displays_of_mutateJob ?_ h
      intro row hrow
      cases hrow

/-! ## What clients can rely on -/

/-- The fields of one body fit together. -/
structure JobResponse.Sound (job : JobResponse) : Prop where
  attempts : 0 ≤ job.attemptCount ∧ job.attemptCount ≤ job.maxAttempts
  progress : 0 ≤ job.progress ∧ job.progress ≤ 100
  result : job.result.isSome ↔ job.status = .completed
  completedAt : job.completedAt.isSome ↔
    job.status = .completed ∨ job.status = .failed
  startedAt : job.startedAt.isSome ↔ 1 ≤ job.attemptCount
  scheduledAt : job.status = .scheduled → job.scheduledAt.isSome
  failed : job.status = .failed →
    job.error.isSome ∧ job.attemptCount = job.maxAttempts
  completed : job.status = .completed →
    job.progress = 100 ∧ job.error = none

theorem Job.Wellformed.sound {row : Job} (h : row.Wellformed) :
    (JobResponse.modelValidate row).Sound where
  attempts := ⟨h.counters.attempt_nonneg, h.counters.attempt_le⟩
  progress := ⟨h.counters.progress_nonneg, h.counters.progress_le⟩
  result := h.outcome.result
  completedAt := h.outcome.completedAt
  startedAt := h.counters.started
  scheduledAt := h.outcome.scheduled
  failed hs := ⟨h.outcome.failed hs, h.counters.exhausted hs⟩
  completed := h.outcome.completed

/-- The later body of a job continues the earlier one: the submission is the
same, the status has moved along the arrows, and a job that is completed or
cancelled looks the same in every field. -/
structure JobResponse.LeadsTo (job later : JobResponse) : Prop where
  id : later.id = job.id
  type : later.type = job.type
  payload : later.payload = job.payload
  priority : later.priority = job.priority
  maxAttempts : later.maxAttempts = job.maxAttempts
  createdAt : later.createdAt = job.createdAt
  status : Relation.ReflTransGen (fun s s' => s.canBecome s' = true)
    job.status later.status
  frozen : job.status.isFinal = true → later = job

theorem Change.reaches {r : Job} {c : Change} (hc : c.Enabled r) :
    Relation.ReflTransGen (fun s s' => s.canBecome s' = true) r.status
      (c.apply r).status := by
  rw [Change.status_apply hc]
  cases htarget : c.target with
  | none => exact .refl
  | some s =>
      have hleaves := Change.leaves_of_enabled hc (by simp [htarget])
      exact .single (Change.canBecome hleaves htarget)

theorem RowPath.reaches {r : Job} {cs : List Change} {s? : Option Job}
    (h : RowPath (some r) cs s?) :
    ∃ s, s? = some s ∧ Relation.ReflTransGen
      (fun s s' => s.canBecome s' = true) r.status s.status := by
  induction h with
  | nil => exact ⟨r, rfl, .refl⟩
  | snoc _ hstep ih =>
      obtain ⟨b, rfl, hreaches⟩ := ih
      cases hstep with
      | change hc => exact ⟨_, rfl, hreaches.trans (Change.reaches hc)⟩

/-- A body of a row leads to every later body of it. -/
theorem RowPath.leadsTo {r s : Job} {cs : List Change}
    (h : RowPath (some r) cs (some s)) :
    (JobResponse.modelValidate r).LeadsTo (.modelValidate s) := by
  obtain ⟨s', hs', hcontinues⟩ := RowPath.continues h
  obtain rfl := Option.some.inj hs'
  obtain ⟨s', hs', hreaches⟩ := RowPath.reaches h
  obtain rfl := Option.some.inj hs'
  obtain ⟨hid, htype, hpayload, hpriority, hmax, hcreated⟩ :=
    hcontinues.submission
  refine ⟨hid, htype, hpayload, hpriority, hmax, hcreated, hreaches, ?_⟩
  intro hfinal
  have hsame := hcontinues.frozen hfinal
  rw [Job.SameButKey] at hsame
  rw [hsame]
  rfl

theorem api_wellformed (settings : Settings) (turns : List Turn) :
    Jobs.Wellformed ((api settings).run KeyedTable.empty turns) :=
  Jobs.Wellformed.of_path (fun _ _ hr => by cases hr)
    (api_run_path settings KeyedTable.empty turns)

theorem executeFirst_returns {t : Jobs} {p : Job → Bool}
    {a : Assignment Job.id} {c : Change} (hwf : Jobs.Wellformed t)
    (hc : ∀ r, p r = true → c.Enabled r ∧ c.apply r = a.set r) :
    ∃ result, executeFirst t p a = .ok result := by
  have hpasses := executeFirst_passesChecks hwf hc
  unfold executeFirst executeUpdate at hpasses ⊢
  split at hpasses
  · next name hviolated => exact (hpasses name rfl).elim
  · exact ⟨_, rfl⟩

theorem statusCode_mutateJob {result : Except ServiceError Job}
    (h : ∀ e, result = .error e →
      (∃ id, e = .jobNotFound id) ∨ ∃ id action status,
        e = .jobConflict id action status) :
    (Api.mutateJob result).statusCode ∈ [200, 201, 404, 409] := by
  cases result with
  | ok job => simp [Api.mutateJob]
  | error e =>
      rcases h e rfl with ⟨id, rfl⟩ | ⟨id, action, status, rfl⟩
      · simp [Api.mutateJob, Api.translateMutation, Api.jobNotFound]
      · simp [Api.mutateJob, Api.translateMutation]

/-- The requests that may be answered with a server error: a submission, and a
list from an offset that is no `bigint`. -/
def Turn.CanFail (turn : Turn) : Prop :=
  (∃ clock id request key, turn = .insert clock id request key) ∨
    ∃ query total, turn = .listJobs query total ∧ offsetBound ≤ query.offset

theorem statusCode_of_step {settings : Settings} {t : Jobs}
    (hwf : Jobs.Wellformed t) {turn : Turn} {response : Response}
    (h : ((api settings).step t turn).2 = some response) :
    response.statusCode ∈ [200, 201, 404, 409] ∨
      response.statusCode = 500 ∧ turn.CanFail := by
  cases turn with
  | work op => cases h
  | lookUp key now =>
      obtain ⟨job, -, rfl⟩ := Option.map_eq_some_iff.mp h
      exact Or.inl (by simp [Api.createJob])
  | insert clock id request key =>
      simp only [api] at h
      split at h
      · next t' s hinsert =>
          obtain rfl := Option.some.inj h
          left
          cases hcreated : s.created with
          | true => simp [Api.createJob]
          | false => simp [Api.createJob]
      · obtain rfl := Option.some.inj h
        exact Or.inr ⟨rfl, Or.inl ⟨clock, id, request, key, rfl⟩⟩
  | getJob jobId =>
      obtain rfl := Option.some.inj h
      left
      cases getJob t jobId with
      | none => simp [Api.getJob, Api.jobNotFound]
      | some row => simp [Api.getJob]
  | listJobs query total =>
      obtain rfl := Option.some.inj h
      by_cases hoffset : query.offset < offsetBound
      · exact Or.inl (by simp [Api.listJobs, hoffset])
      · rw [Api.listJobs, if_neg hoffset]
        exact Or.inr ⟨rfl, Or.inr ⟨query, total, rfl, not_lt.mp hoffset⟩⟩
  | cancel jobId =>
      left
      obtain ⟨⟨t', row⟩, hcancel⟩ : ∃ result, cancelRow t jobId = .ok result :=
        executeFirst_returns (c := .cancelled) hwf fun r hr => by
          simp only [Bool.and_eq_true] at hr
          exact ⟨hr.2, rfl⟩
      simp only [api, hcancel] at h
      cases row with
      | none => cases h
      | some job =>
          obtain rfl := Option.some.inj h
          exact statusCode_mutateJob fun e he => by cases he
  | retry jobId =>
      left
      obtain ⟨⟨t', row⟩, hretry⟩ : ∃ result, retryRow t jobId = .ok result :=
        executeFirst_returns (c := .retried) hwf fun r hr => by
          simp only [Bool.and_eq_true, decide_eq_true_eq] at hr
          exact ⟨hr.2, rfl⟩
      simp only [api, hretry] at h
      cases row with
      | none => cases h
      | some job =>
          obtain rfl := Option.some.inj h
          exact statusCode_mutateJob fun e he => by cases he
  | explainCancel jobId =>
      obtain rfl := Option.some.inj h
      refine Or.inl (statusCode_mutateJob fun e he => ?_)
      unfold cancelUnmatched at he
      split at he
      · exact Or.inl ⟨_, (Except.error.inj he).symm⟩
      · split at he
        · cases he
        · exact Or.inr ⟨_, _, _, (Except.error.inj he).symm⟩
  | explainRetry jobId =>
      obtain rfl := Option.some.inj h
      refine Or.inl (statusCode_mutateJob fun e he => ?_)
      rw [← Except.error.inj he]
      cases getJob t jobId with
      | none => exact Or.inl ⟨_, rfl⟩
      | some row => exact Or.inr ⟨_, _, _, rfl⟩

/-- Whatever clients are shown about a job fits together.  Take any run of the
system and two turns of it, each of any request.  The fields of every body fit
together; a body shown at the later turn continues every body shown of the same
job at the earlier one; once a job has been shown, `GET` finds it for ever; and
no request but a submission, or a list from an offset beyond the driver, is
answered with a server error. -/
theorem responses_are_consistent (settings : Settings) (before : List Turn)
    (x : Turn) (between : List Turn) (y : Turn) :
    let first := (api settings).step
      ((api settings).run KeyedTable.empty before) x
    let second := (api settings).step
      ((api settings).run first.1 between) y
    (∀ job ∈ shown first.2, job.Sound ∧
      (∀ later ∈ shown second.2, later.id = job.id → job.LeadsTo later) ∧
      (y = .getJob job.id → ∃ later, job.LeadsTo later ∧
        second.2 = some ⟨200, .job later⟩)) ∧
    ∀ response, first.2 = some response →
      response.statusCode ∈ [200, 201, 404, 409] ∨
        response.statusCode = 500 ∧ x.CanFail := by
  intro first second
  have hfirst : first.1 =
      (api settings).run KeyedTable.empty (before ++ [x]) :=
    ((api settings).run_append _ before [x]).symm
  refine ⟨fun job hjob => ?_, fun response hresponse =>
    statusCode_of_step (api_wellformed settings before) hresponse⟩
  obtain ⟨row, hrow, rfl⟩ := displays_of_shown hjob
  obtain ⟨cs, hbetween⟩ := api_run_path settings first.1 between row.id
  have hleads : ∀ row', second.1.find? row.id = some row' →
      (JobResponse.modelValidate row).LeadsTo (.modelValidate row') := by
    intro row' hrow'
    obtain ⟨ds, hlast⟩ := api_step_path settings
      ((api settings).run first.1 between) y row.id
    have hpath := hbetween.append hlast
    rw [show first.1.find? row.id = some row from hrow] at hpath
    exact RowPath.leadsTo (hrow' ▸ hpath)
  refine ⟨?_, fun later hlater hid => ?_, ?_⟩
  · have hwf := api_wellformed settings (before ++ [x])
    rw [← hfirst] at hwf
    exact (hwf _ _ hrow).sound
  · obtain ⟨row', hrow', rfl⟩ := displays_of_shown hlater
    have hkey : row'.id = row.id := hid
    exact hleads row' (hkey ▸ hrow')
  · rintro rfl
    rw [show first.1.find? row.id = some row from hrow] at hbetween
    obtain ⟨row', hrow'⟩ := hbetween.exists_some
    have hsecond : second.1.find? row.id = some row' := hrow'
    refine ⟨.modelValidate row', hleads row' hsecond, ?_⟩
    have hget : getJob ((api settings).run first.1 between) row.id =
        some row' := hrow'
    change some (Api.getJob (getJob ((api settings).run first.1 between)
      row.id)) = _
    rw [hget]
    rfl

end JobQueue
