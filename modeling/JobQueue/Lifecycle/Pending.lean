import JobQueue.Lifecycle.Accounting
import JobQueue.Lifecycle.Transitions

/-!
# Entering `PENDING`

A job becomes runnable in three ways: it is created so, a due retry or a due
submission is activated, or a failed job is retried by hand.  Each call reports
the rows it moved, and the report is exact: a row is in it precisely if this
call took it from another state, or from nothing, into `PENDING`.
-/

namespace JobQueue

open Support

/-- What `submit_job` publishes after `create_job`. -/
def published (s : Submitted) : List Job :=
  if s.created && s.job.status = .pending then [s.job] else []

/-- The rows whose move into `PENDING` a call reports: the job it created, the
rows it activated, or the job it retried. -/
def publications : Op × Outcome → List Job
  | (.createJob _ _ _ _, .ok (.submitted s)) => published s
  | (.insertJob _ _ _ _, .ok (.submitted s)) => published s
  | (.activateDueScheduledJobs _ _ _, .ok (.activated rows)) => rows
  | (.activateSelected _ _, .ok (.activated rows)) => rows
  | (.retryJob _, .ok (.retried row)) => [row]
  | _ => []

def Op.publishes : Op → Bool
  | .createJob _ _ _ _ => true
  | .insertJob _ _ _ _ => true
  | .activateDueScheduledJobs _ _ _ => true
  | .activateSelected _ _ => true
  | .retryJob _ => true
  | _ => false

theorem publications_eq_nil {op : Op} (h : op.publishes = false)
    (outcome : Outcome) : publications (op, outcome) = [] := by
  cases op <;> first | rfl | cases h

def isPendingAt (t : Jobs) (id : UUID) : Bool :=
  (t.find? id).any (·.status = .pending)

/-- The row under the id goes from some other state, or from nothing, into
`PENDING`. -/
def entersPending (t t' : Jobs) (id : UUID) : Bool :=
  !isPendingAt t id && isPendingAt t' id

theorem isPendingAt_iff {t : Jobs} {id : UUID} :
    isPendingAt t id = true ↔
      ∃ r, t.find? id = some r ∧ r.status = .pending := by
  simp [isPendingAt, Option.any_eq_true]

/-! ## Changes -/

def Change.isEntry : Change → Bool
  | .created row => row.status = .pending
  | .activated _ => true
  | .retried => true
  | _ => false

/-- The change may take its row out of `PENDING`. -/
def Change.isExit : Change → Bool
  | .claimed _ _ _ _ => true
  | .cancelled => true
  | _ => false

@[simp] theorem failureChange_isEntry (cause : Cause) (now : Time)
    (a : Attempt) (error : String) (outcome : AttemptOutcome) :
    (failureChange cause now a error outcome).isEntry = false := by
  cases outcome <;> rfl

/-- One while the row is `PENDING`. -/
def ready (r? : Option Job) : ℕ :=
  if r?.any (·.status = .pending) then 1 else 0

theorem ready_find? (t : Jobs) (id : UUID) :
    ready (t.find? id) = (isPendingAt t id).toNat := by
  cases h : isPendingAt t id with
  | true => exact if_pos h
  | false => exact if_neg (Bool.eq_false_iff.mp h)

/-- An entry takes a row that was not `PENDING`, and only exits leave. -/
theorem RowStep.ready {r? s? : Option Job} {c : Change}
    (h : RowStep r? c s?) :
    JobQueue.ready s? ≤ JobQueue.ready r? + c.isEntry.toNat ∧
      (c.isExit = false →
        JobQueue.ready s? = JobQueue.ready r? + c.isEntry.toNat) := by
  cases h with
  | @create row hnew =>
      by_cases hp : row.status = .pending
      · simp [JobQueue.ready, Change.isEntry, hp]
      · simp [JobQueue.ready, Change.isEntry, hp]
  | @change r c hc =>
      cases c with
      | created row => exact hc.elim
      | claimed now workerId token deadline =>
          simp [JobQueue.ready, Change.apply, claim, Change.isExit]
      | completed now a result =>
          have hstatus := (ownedBy_iff.mp hc).2.1
          simp [JobQueue.ready, Change.apply, complete, releasedOwnership,
            hstatus, Change.isEntry]
      | retryScheduled cause now a delay error =>
          have hstatus := (ownedBy_iff.mp hc.1).2.1
          simp [JobQueue.ready, Change.apply, scheduleRetry,
            releasedOwnership, hstatus, Change.isEntry]
      | permanentlyFailed cause now a error =>
          have hstatus := (ownedBy_iff.mp hc.1).2.1
          simp [JobQueue.ready, Change.apply, failPermanently,
            releasedOwnership, hstatus, Change.isEntry]
      | activated now =>
          have hstatus := (Job.isDue_iff.mp hc).1
          simp [JobQueue.ready, Change.apply, activate, hstatus,
            Change.isEntry]
      | cancelled =>
          simp [JobQueue.ready, Change.apply, cancel, releasedOwnership,
            Change.isExit]
      | retried =>
          have hstatus : r.status = .failed := hc
          simp [JobQueue.ready, Change.apply, restart, releasedOwnership,
            hstatus, Change.isEntry]
      | keyReleased => exact ⟨le_rfl, fun _ => rfl⟩
      | leaseExtended now a deadline => exact ⟨le_rfl, fun _ => rfl⟩
      | progressed a progress => exact ⟨le_rfl, fun _ => rfl⟩

theorem RowPath.ready {r? s? : Option Job} {cs : List Change}
    (h : RowPath r? cs s?) :
    JobQueue.ready s? ≤ JobQueue.ready r? + cs.countP Change.isEntry ∧
      ((∀ c ∈ cs, c.isExit = false) →
        JobQueue.ready s? =
          JobQueue.ready r? + cs.countP Change.isEntry) := by
  induction h with
  | nil => simp
  | @snoc cs b c l _ hstep ih =>
      obtain ⟨hle, heq⟩ := hstep.ready
      have hcount : (cs ++ [l]).countP Change.isEntry =
          cs.countP Change.isEntry + l.isEntry.toNat := by
        cases hl : l.isEntry <;> simp [List.countP_append, hl]
      rw [hcount]
      refine ⟨by omega, fun hexit => ?_⟩
      have hlast := heq (hexit l (by simp))
      have hinit := ih.2 fun c hc => hexit c (by simp [hc])
      omega

/-! ## Calls -/

/-- A call that puts some row into `PENDING` takes none out of it. -/
theorem Makes.not_exit {settings : Settings} {call : Op × Outcome}
    {id id' : UUID} {c c' : Change} (h : Makes settings call id c)
    (hc : c.isEntry = true) (h' : Makes settings call id' c') :
    c'.isExit = false := by
  cases h with
  | created op s hcreated => cases h' <;> rfl
  | activated now limit locked rows r hr => cases h'; rfl
  | activatedSelected now due rows r hr => cases h'; rfl
  | retried jobId row => cases h'; rfl
  | attemptFailed now a error result => simp at hc
  | recovered now limit locked results x hx => simp at hc
  | _ => simp [Change.isEntry] at hc

/-- The changes of a submission that enter `PENDING` are what it publishes. -/
theorem countP_published (settings : Settings) (op : Op) (s : Submitted)
    (id : UUID) :
    (published s).countP (fun r => r.id = id) =
      (changesFor id (changesOf settings (op, .ok (.submitted s)))).countP
        Change.isEntry := by
  rw [countP_changesFor]
  by_cases hcreated : s.created = true
  · by_cases hp : s.job.status = .pending
    · simp [published, changesOf, hcreated, hp, List.countP_map,
        Function.comp_def, Change.isEntry, List.countP_cons]
    · simp [published, changesOf, hcreated, hp, List.countP_map,
        Function.comp_def, Change.isEntry]
  · simp [published, changesOf, hcreated]

theorem countP_publications {settings : Settings} {op : Op} {t t' : Jobs}
    {reply : Reply} (h : op.execute settings t = .ok (t', reply))
    (id : UUID) :
    (publications (op, .ok reply)).countP (fun r => r.id = id) =
      (changesFor id (changesOf settings (op, .ok reply))).countP
        Change.isEntry := by
  cases op with
  | createJob clock jobId request key =>
      obtain ⟨s, -, rfl⟩ := answer_eq_ok h
      exact countP_published settings _ s id
  | insertJob clock jobId request key =>
      obtain ⟨s, -, rfl⟩ := answer_eq_ok h
      exact countP_published settings _ s id
  | activateDueScheduledJobs now limit locked =>
      obtain ⟨rows, -, rfl⟩ := answer_eq_ok h
      rw [countP_changesFor]
      simp [publications, changesOf, List.countP_map, Function.comp_def,
        Change.isEntry]
  | activateSelected now due =>
      obtain ⟨rows, -, rfl⟩ := answer_eq_ok h
      rw [countP_changesFor]
      simp [publications, changesOf, List.countP_map, Function.comp_def,
        Change.isEntry]
  | retryJob jobId =>
      obtain ⟨row, hrow, rfl⟩ := answer_eq_ok h
      obtain ⟨r, -, rfl, hrw⟩ := retryJob_cases hrow
      have hid : (restart.set r).id = jobId :=
        KeyedTable.key_of_find?_eq_some hrw.after
      rw [countP_changesFor]
      simp [publications, changesOf, Change.isEntry, hid, List.countP_cons]
  | recoverExpiredLeases now limit locked =>
      obtain ⟨results, -, rfl⟩ := answer_eq_ok h
      rw [countP_changesFor]
      simp [publications, changesOf, List.countP_map, Function.comp_def]
  | failAttempt now a error =>
      obtain ⟨result, -, rfl⟩ := answer_eq_ok h
      rw [countP_changesFor]
      simp [publications, changesOf]
  | releaseExpiredKey key now =>
      obtain ⟨rows, -, rfl⟩ := answer_eq_ok h
      rw [countP_changesFor]
      simp [publications, changesOf, List.countP_map, Function.comp_def,
        Change.isEntry]
  | claimJob now jobId workerId token leaseSeconds =>
      obtain ⟨row, -, rfl⟩ := answer_eq_ok h
      rw [countP_changesFor]
      cases row <;> simp [publications, changesOf, Change.isEntry]
  | extendLease now a leaseSeconds =>
      obtain ⟨deadline, -, rfl⟩ := answer_eq_ok h
      rw [countP_changesFor]
      simp [publications, changesOf, Change.isEntry]
  | updateProgress a progress =>
      obtain ⟨u, -, rfl⟩ := answer_eq_ok h
      rw [countP_changesFor]
      simp [publications, changesOf, Change.isEntry]
  | completeJob now a result =>
      obtain ⟨row, -, rfl⟩ := answer_eq_ok h
      rw [countP_changesFor]
      simp [publications, changesOf, Change.isEntry]
  | cancelJob jobId =>
      obtain ⟨c, -, rfl⟩ := answer_eq_ok h
      rw [countP_changesFor]
      cases hc : c.changed <;>
        simp [publications, changesOf, Change.isEntry, hc]

theorem makes_of_isEntry {settings : Settings} {call : Op × Outcome}
    {id : UUID}
    (h : 0 < (changesFor id (changesOf settings call)).countP
      Change.isEntry) :
    ∃ c, Makes settings call id c ∧ c.isEntry = true := by
  obtain ⟨c, hc, hentry⟩ := List.countP_pos_iff.mp h
  exact ⟨c, makes_of_mem (mem_changesFor.mp hc), hentry⟩

/-- The report of a call names each row at most once, and exactly the rows
the call took into `PENDING`. -/
theorem countP_publications_step (settings : Settings) (t : Jobs) (op : Op)
    (id : UUID) :
    (publications (op, ((service settings).step t op).2)).countP
        (fun r => r.id = id) =
      (entersPending t ((service settings).step t op).1 id).toNat := by
  have hcount : (publications (op, ((service settings).step t op).2)).countP
        (fun r => r.id = id) =
      (changesFor id (changesOf settings
        (op, ((service settings).step t op).2))).countP Change.isEntry := by
    cases hreply : ((service settings).step t op).2 with
    | error e =>
        rw [changesOf_error]
        cases op <;> rfl
    | ok reply => exact countP_publications (execute_of_step_ok hreply) id
  obtain ⟨hle, heq⟩ := RowPath.ready (service_step_path settings t op id)
  rw [ready_find?, ready_find?] at hle heq
  rw [← hcount] at hle heq
  rw [entersPending]
  by_cases hpos : 0 < (changesFor id (changesOf settings
      (op, ((service settings).step t op).2))).countP Change.isEntry
  · -- An entering call makes no exit, so the balance is exact.
    obtain ⟨c, hmakes, hentry⟩ := makes_of_isEntry hpos
    have hexact := heq fun c' hc' =>
      hmakes.not_exit hentry (makes_of_mem (mem_changesFor.mp hc'))
    rw [← hcount] at hpos
    cases hbefore : isPendingAt t id <;>
      cases hafter : isPendingAt ((service settings).step t op).1 id <;>
      simp only [hbefore, hafter, Bool.toNat_true, Bool.toNat_false,
        Bool.not_true, Bool.not_false, Bool.and_true, Bool.and_false]
        at hexact ⊢ <;> omega
  · rw [← hcount] at hpos
    cases hbefore : isPendingAt t id <;>
      cases hafter : isPendingAt ((service settings).step t op).1 id <;>
      simp only [hbefore, hafter, Bool.toNat_true, Bool.toNat_false,
        Bool.not_true, Bool.not_false, Bool.and_true, Bool.and_false]
        at hle ⊢ <;> omega

/-- A call reports a row precisely if it took it into `PENDING`. -/
theorem mem_publications_iff (settings : Settings) (t : Jobs) (op : Op)
    (id : UUID) :
    id ∈ (publications (op, ((service settings).step t op).2)).map Job.id ↔
      entersPending t ((service settings).step t op).1 id = true := by
  have hcount := countP_publications_step settings t op id
  rw [List.mem_map]
  constructor
  · rintro ⟨row, hrow, rfl⟩
    have hpos : 0 < (publications
        (op, ((service settings).step t op).2)).countP
        (fun r => r.id = row.id) :=
      List.countP_pos_iff.mpr ⟨row, hrow, by simp⟩
    by_contra hne
    rw [Bool.not_eq_true] at hne
    rw [hcount, hne] at hpos
    simp at hpos
  · intro henters
    rw [henters] at hcount
    obtain ⟨row, hrow, hid⟩ :=
      List.countP_pos_iff.mp (hcount.ge.trans_lt' Nat.one_pos)
    exact ⟨row, hrow, of_decide_eq_true hid⟩

theorem nodup_publications (settings : Settings) (t : Jobs) (op : Op) :
    ((publications (op, ((service settings).step t op).2)).map
      Job.id).Nodup := by
  rw [List.nodup_iff_count_le_one]
  intro id
  have hcount := countP_publications_step settings t op id
  have hone := Bool.toNat_le
    (entersPending t ((service settings).step t op).1 id)
  rw [List.count, List.countP_map]
  simp only [Function.comp_def, beq_eq_decide]
  omega

theorem mem_published {s : Submitted} {row : Job} (h : row ∈ published s) :
    s.created = true ∧ row = s.job := by
  unfold published at h
  split at h
  · next hcond =>
      rw [Bool.and_eq_true] at hcond
      exact ⟨hcond.1, List.mem_singleton.mp h⟩
  · simp at h

theorem find?_of_insertJob {t t' : Jobs} {clock : SubmitClock} {id : UUID}
    {request : JobCreateRequest} {key : Option String} {s : Submitted}
    (h : insertJob t clock id request key = .ok (t', s))
    (hcreated : s.created = true) : t'.find? s.job.id = some s.job := by
  rcases insertJob_cases h with ⟨hnot, -⟩ | ⟨-, -, t₁, -, hinsert⟩
  · rw [hnot] at hcreated
    cases hcreated
  · obtain ⟨-, -, hfresh, rfl⟩ := executeInsert_eq_ok hinsert
    rw [KeyedTable.find?_insert, if_pos rfl]

theorem find?_of_returning {t : Jobs} {p : Job → Bool}
    {a : Assignment Job.id} {row : Job} (h : row ∈ t.returning p a) :
    (t.updateWhere p a).find? row.id = some row := by
  obtain ⟨r, hr, rfl⟩ := List.mem_map.mp h
  obtain ⟨hmem, hp⟩ := KeyedTable.mem_select.mp hr
  rw [KeyedTable.find?_updateWhere, a.key_set, KeyedTable.find?_of_mem hmem]
  simp [hp]

/-- The rows a call reports are the rows it stored. -/
theorem find?_of_mem_publications {settings : Settings} {t : Jobs} {op : Op}
    {row : Job}
    (h : row ∈ publications (op, ((service settings).step t op).2)) :
    ((service settings).step t op).1.find? row.id = some row := by
  cases hreply : ((service settings).step t op).2 with
  | error e =>
      rw [hreply] at h
      cases op <;> simp [publications] at h
  | ok reply =>
      have hexec := execute_of_step_ok hreply
      rw [hreply] at h
      cases op with
      | createJob clock jobId request key =>
          obtain ⟨s, hs, rfl⟩ := answer_eq_ok hexec
          obtain ⟨hcreated, rfl⟩ := mem_published h
          rcases createJob_cases hs with ⟨hnot, -⟩ | hinsert
          · rw [hnot] at hcreated
            cases hcreated
          · exact find?_of_insertJob hinsert hcreated
      | insertJob clock jobId request key =>
          obtain ⟨s, hs, rfl⟩ := answer_eq_ok hexec
          obtain ⟨hcreated, rfl⟩ := mem_published h
          exact find?_of_insertJob hs hcreated
      | activateDueScheduledJobs now limit locked =>
          obtain ⟨rows, hrows, rfl⟩ := answer_eq_ok hexec
          obtain ⟨htable, rfl⟩ := executeUpdate_eq_ok hrows
          rw [htable]
          exact find?_of_returning h
      | activateSelected now due =>
          obtain ⟨rows, hrows, rfl⟩ := answer_eq_ok hexec
          obtain ⟨htable, rfl⟩ := executeUpdate_eq_ok hrows
          rw [htable]
          exact find?_of_returning h
      | retryJob jobId =>
          obtain ⟨row', hrow, rfl⟩ := answer_eq_ok hexec
          obtain ⟨r, -, rfl, hrw⟩ := retryJob_cases hrow
          have hmem : row = restart.set r := List.mem_singleton.mp h
          have hid : (restart.set r).id = jobId :=
            KeyedTable.key_of_find?_eq_some hrw.after
          rw [hmem, hid]
          exact hrw.after
      | _ => simp [publications] at h

/-! ## Cancelled jobs -/

def isCancelledAt (t : Jobs) (id : UUID) : Bool :=
  (t.find? id).any (·.status = .cancelled)

theorem isCancelledAt_iff {t : Jobs} {id : UUID} :
    isCancelledAt t id = true ↔
      ∃ r, t.find? id = some r ∧ r.status = .cancelled := by
  simp [isCancelledAt, Option.any_eq_true]

theorem Change.cancelled_of_enabled {r : Job} {c : Change} (hc : c.Enabled r)
    (hr : r.status = .cancelled) : (c.apply r).status = .cancelled := by
  rw [Change.keyReleased_of_final hc (by simp [JobStatus.isFinal, hr])]
  exact hr

theorem RowPath.cancelled {r : Job} {cs : List Change} {s? : Option Job}
    (h : RowPath (some r) cs s?) (hr : r.status = .cancelled) :
    ∃ s, s? = some s ∧ s.status = .cancelled :=
  Trail.invariant
    (P := fun _ s? => ∃ s, s? = some s ∧ s.status = .cancelled)
    ⟨r, rfl, hr⟩ (fun _ b l c hb hstep => by
      obtain ⟨s, rfl, hs⟩ := hb
      cases hstep with
      | change hl => exact ⟨_, rfl, Change.cancelled_of_enabled hl hs⟩) h

theorem isCancelledAt_step {settings : Settings} {t : Jobs} {id : UUID}
    (h : isCancelledAt t id = true) (op : Op) :
    isCancelledAt ((service settings).step t op).1 id = true := by
  obtain ⟨r, hr, hstatus⟩ := isCancelledAt_iff.mp h
  have hpath := service_step_path settings t op id
  rw [hr] at hpath
  obtain ⟨s, hs, hcancelled⟩ :=
    RowPath.cancelled hpath hstatus
  exact isCancelledAt_iff.mpr ⟨s, hs, hcancelled⟩

theorem not_pending_of_cancelled {t : Jobs} {id : UUID}
    (h : isCancelledAt t id = true) : isPendingAt t id = false := by
  obtain ⟨r, hr, hstatus⟩ := isCancelledAt_iff.mp h
  simp [isPendingAt, hr, hstatus]

end JobQueue
