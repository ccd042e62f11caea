import JobQueue.Lifecycle.Transitions
import JobQueue.Mutations.Calls

/-!
# What a conflict reports

A call whose `UPDATE` matched nothing reads the job again to say why.  The
reason it gives is the status at the time of the read.  If nothing in between
makes the job cancellable again (or `FAILED` again, for a retry), that status
explains the refusal; a failed attempt that is rescheduled in between makes
the call refuse a cancellation because the job is `scheduled`.
-/

namespace JobQueue

open Support

/-- The answer of the API to an exception of a mutation. -/
def translateMutation : ServiceError → Option (ℕ × String)
  | .jobNotFound _ => some (404, "job not found")
  | .jobConflict _ action status =>
      some (409, "cannot " ++ action ++ " a job that is " ++ status)
  | _ => none

/-- A conflict names a status that excludes the action. -/
def ServiceError.isTruthful : ServiceError → Bool
  | .jobConflict _ "cancel" status =>
      status ∈ ["processing", "completed", "failed"]
  | .jobConflict _ "retry" status => status ≠ "failed"
  | _ => true

/-! ## Operations -/

theorem cancelJob_table {settings : Settings} {t t' : Jobs} {jobId : UUID}
    {row : Option Job} (h : cancelRow t jobId = .ok (t', row)) :
    ((service settings).step t (.cancelJob jobId)).1 = t' := by
  simp only [service, Op.execute, JobQueue.cancelJob, h]
  cases row with
  | some row => rfl
  | none =>
      obtain rfl : t' = t := by
        rcases cancelRow_cases h with ⟨-, htable, -⟩ | ⟨r, -, hrow, -⟩
        · exact htable
        · cases hrow
      change (settle t' (answer Reply.cancelled (cancelUnmatched jobId
        (getJob t' jobId) >>= fun existing => .ok (t', ⟨existing, false⟩)))).1 =
          t'
      cases cancelUnmatched jobId (getJob t' jobId) <;> rfl

theorem cancelJob_table_of_error {settings : Settings} {t : Jobs}
    {jobId : UUID} {e : ServiceError} (h : cancelRow t jobId = .error e) :
    ((service settings).step t (.cancelJob jobId)).1 = t := by
  simp only [service, Op.execute, JobQueue.cancelJob, h]
  rfl

theorem retryJob_table {settings : Settings} {t t' : Jobs} {jobId : UUID}
    {row : Option Job} (h : retryRow t jobId = .ok (t', row)) :
    ((service settings).step t (.retryJob jobId)).1 = t' := by
  simp only [service, Op.execute, JobQueue.retryJob, h]
  cases row with
  | some row => rfl
  | none =>
      rcases retryRow_cases h with ⟨-, rfl, -⟩ | ⟨r, -, hrow, -⟩
      · rfl
      · cases hrow

theorem retryJob_table_of_error {settings : Settings} {t : Jobs}
    {jobId : UUID} {e : ServiceError} (h : retryRow t jobId = .error e) :
    ((service settings).step t (.retryJob jobId)).1 = t := by
  simp only [service, Op.execute, JobQueue.retryJob, h]
  rfl

theorem MutationStep.jobs {settings : Settings} {s s' : Store}
    {p p' : MutationCall} {a : MutationAction}
    (h : MutationStep settings s p a s' p') :
    (p.operation a = none ∧ s'.jobs = s.jobs) ∨
      ∃ op, p.operation a = some op ∧
        s'.jobs = ((service settings).step s.jobs op).1 := by
  cases h with
  | stay p a redis hnone => exact Or.inl ⟨hnone, rfl⟩
  | other p op => exact Or.inr ⟨op, by cases p <;> rfl, rfl⟩
  | claim jobId workerId leaseSeconds now token jobs row hclaim =>
      refine Or.inr ⟨_, rfl, ?_⟩
      simp only [service, Op.execute, hclaim]
      rfl
  | claimRaised jobId workerId leaseSeconds now token e hclaim =>
      refine Or.inr ⟨_, rfl, ?_⟩
      simp only [service, Op.execute, hclaim]
      rfl
  | cancel jobId jobs row hrow =>
      exact Or.inr ⟨_, rfl, (cancelJob_table hrow).symm⟩
  | cancelMissed jobId jobs hrow =>
      exact Or.inr ⟨_, rfl, (cancelJob_table hrow).symm⟩
  | cancelRaised jobId e hrow =>
      exact Or.inr ⟨_, rfl, (cancelJob_table_of_error hrow).symm⟩
  | retry jobId jobs row hrow =>
      exact Or.inr ⟨_, rfl, (retryJob_table hrow).symm⟩
  | retryMissed jobId jobs hrow =>
      exact Or.inr ⟨_, rfl, (retryJob_table hrow).symm⟩
  | retryRaised jobId e hrow =>
      exact Or.inr ⟨_, rfl, (retryJob_table_of_error hrow).symm⟩
  | _ => exact Or.inl ⟨rfl, rfl⟩

/-! ## Statuses that stay away -/

/-- The change may turn a job that cannot be cancelled into one that can. -/
def Change.reopens : Change → Bool
  | .created _ => true
  | .retryScheduled _ _ _ _ _ => true
  | .retried => true
  | _ => false

/-- The change turns a job into a `FAILED` one. -/
def Change.fails : Change → Bool
  | .permanentlyFailed _ _ _ _ => true
  | _ => false

/-- A status that no admitted change enters is not entered along a path. -/
theorem RowPath.avoids (bad : JobStatus → Bool) (excluded : Change → Bool)
    (hcreate : ∀ row, row.IsNew → excluded (.created row) = false →
      bad row.status = false)
    (hchange : ∀ r c, c.Enabled r → bad r.status = false →
      excluded c = false → bad (c.apply r).status = false)
    {r? s? : Option Job} {cs : List Change} (h : RowPath r? cs s?)
    (hr : ∀ r, r? = some r → bad r.status = false)
    (hcs : ∀ c ∈ cs, excluded c = false) :
    ∀ s, s? = some s → bad s.status = false := by
  induction h with
  | nil => exact hr
  | @snoc cs b? c? l hpath hstep ih =>
      have hbefore := ih fun c hc => hcs c (by simp [hc])
      have hlast := hcs l (by simp)
      rintro s hs
      cases hstep with
      | create hnew =>
          cases hs
          exact hcreate _ hnew hlast
      | change henabled =>
          cases hs
          exact hchange _ _ henabled (hbefore _ rfl) hlast

theorem Change.not_cancellable {r : Job} {c : Change} (hc : c.Enabled r)
    (hr : cancellable r.status = false) (hreopens : c.reopens = false) :
    cancellable (c.apply r).status = false := by
  rw [Change.status_apply hc]
  cases c with
  | activated now =>
      rw [(Job.isDue_iff.mp hc).1] at hr
      cases hr
  | created row => cases hreopens
  | retryScheduled cause now a delay error => cases hreopens
  | retried => cases hreopens
  | keyReleased => exact hr
  | leaseExtended now a deadline => exact hr
  | progressed a progress => exact hr
  | _ => rfl

theorem Change.not_failed {r : Job} {c : Change} (hc : c.Enabled r)
    (hr : decide (r.status = .failed) = false) (hfails : c.fails = false) :
    decide ((c.apply r).status = .failed) = false := by
  rw [Change.status_apply hc]
  cases c with
  | created row => exact hc.elim
  | permanentlyFailed cause now a error => cases hfails
  | keyReleased => exact hr
  | leaseExtended now a deadline => exact hr
  | progressed a progress => exact hr
  | _ => rfl

theorem Job.IsNew.not_failed {row : Job} (h : row.IsNew) :
    decide (row.status = .failed) = false := by
  obtain ⟨request, scheduledAt, key, now, createdAt, id, rfl⟩ := h.eq_newJob
  simp only [newJob]
  split
  · rfl
  · rfl

/-! ## The calls -/

/-- What a call knows about the job it has to explain, and what it says. -/
def MutationCall.Truthful (t : Jobs) : MutationCall → Prop
  | .explainingCancel jobId =>
      ∀ r, t.find? jobId = some r → cancellable r.status = false
  | .explainingRetry jobId =>
      ∀ r, t.find? jobId = some r → decide (r.status = .failed) = false
  | .raised e => e.isTruthful = true
  | _ => True

/-- The operation leaves the explanation of a refused call true: it does not
schedule a retry of the job, retry it by hand or create it while a refused
cancellation is about to be explained, nor fail it for good while a refused
retry is. -/
def MutationCall.Undisturbed (settings : Settings) (t : Jobs) (op : Op) :
    MutationCall → Prop
  | .explainingCancel jobId => ∀ c ∈ changesFor jobId
      (changesOf settings (op, ((service settings).step t op).2)),
      c.reopens = false
  | .explainingRetry jobId => ∀ c ∈ changesFor jobId
      (changesOf settings (op, ((service settings).step t op).2)),
      c.fails = false
  | _ => True

theorem MutationCall.Truthful.step {settings : Settings} {t : Jobs}
    {op : Op} {p : MutationCall} (hp : p.Truthful t)
    (hop : p.Undisturbed settings t op) :
    p.Truthful ((service settings).step t op).1 := by
  cases p with
  | explainingCancel jobId =>
      exact RowPath.avoids cancellable Change.reopens
        (fun _ _ h => nomatch h)
        (fun _ _ hc hr => Change.not_cancellable hc hr)
        (service_step_path settings t op jobId) hp hop
  | explainingRetry jobId =>
      exact RowPath.avoids (fun s => decide (s = .failed)) Change.fails
        (fun _ hnew _ => hnew.not_failed)
        (fun _ _ hc hr => Change.not_failed hc hr)
        (service_step_path settings t op jobId) hp hop
  | _ => exact hp

/-- The error that explains a refused cancellation is truthful. -/
theorem cancelUnmatched_truthful {jobId : UUID} {existing : Option Job}
    (h : ∀ r, existing = some r → cancellable r.status = false)
    {e : ServiceError} (he : cancelUnmatched jobId existing = .error e) :
    e.isTruthful = true := by
  cases existing with
  | none =>
      cases he
      rfl
  | some r =>
      have hr := h r rfl
      simp only [cancelUnmatched] at he
      split at he
      · cases he
      · next hne =>
          cases he
          cases hstatus : r.status <;> rw [hstatus] at hr hne <;>
            first | exact absurd rfl hne | rfl | cases hr

theorem retryUnmatched_truthful {jobId : UUID} {existing : Option Job}
    (h : ∀ r, existing = some r → decide (r.status = .failed) = false) :
    (retryUnmatched jobId existing).isTruthful = true := by
  cases existing with
  | none => rfl
  | some r =>
      have hr := h r rfl
      cases hstatus : r.status <;> rw [hstatus] at hr <;>
        simp_all [retryUnmatched, ServiceError.isTruthful, JobStatus.value]

theorem integrity_truthful {t : Jobs} {p : Job → Bool}
    {a : Assignment Job.id} {e : ServiceError}
    (h : executeFirst t p a = .error e) : e.isTruthful = true := by
  obtain ⟨name, rfl⟩ := executeFirst_eq_error h
  rfl

/-- Every step of a call keeps what it knows. -/
theorem MutationStep.truthful {settings : Settings} {s s' : Store}
    {p p' : MutationCall} {a : MutationAction}
    (h : MutationStep settings s p a s' p') (hp : p.Truthful s.jobs)
    (hop : ∀ op, p.operation a = some op →
      p.Undisturbed settings s.jobs op) : p'.Truthful s'.jobs := by
  cases h with
  | stay p a redis hnone => exact hp
  | other p op => exact hp.step (hop op (by cases p <;> rfl))
  | claimRaised jobId workerId leaseSeconds now token e hclaim =>
      exact integrity_truthful hclaim
  | cancelMissed jobId jobs hrow =>
      rcases cancelRow_cases hrow with ⟨-, rfl, hnone⟩ | ⟨r, -, hrow, -⟩
      · exact hnone
      · cases hrow
  | cancelRaised jobId e hrow => exact integrity_truthful hrow
  | cancelRefused jobId e hrefused => exact cancelUnmatched_truthful hp hrefused
  | retryMissed jobId jobs hrow =>
      rcases retryRow_cases hrow with ⟨-, rfl, hnone⟩ | ⟨r, -, hrow, -⟩
      · exact fun r hr => decide_eq_false (hnone r hr)
      · cases hrow
  | retryRaised jobId e hrow => exact integrity_truthful hrow
  | retryRefused jobId => exact retryUnmatched_truthful hp
  | _ => trivial

def noCalls : Configuration Store MutationCall where
  shared := Store.empty
  process _ := .idle

/-- In every run from the empty table in which no transaction between the two
steps of a refused call disturbs its explanation, every conflict that is
raised names a status that excludes the action. -/
theorem conflicts_tell_the_truth (settings : Settings)
    {actions : List (ℕ × MutationAction)}
    (hcalm : ∀ before pid a after, actions = before ++ (pid, a) :: after →
      ∀ op, ((mutationsAfter settings noCalls before).process
          pid).operation a = some op →
        ∀ q, ((mutationsAfter settings noCalls before).process q).Undisturbed
          settings (mutationsAfter settings noCalls before).shared.jobs op)
    {pid : ℕ} {e : ServiceError}
    (hraised : (mutationsAfter settings noCalls actions).process pid =
      .raised e) : e.isTruthful = true := by
  have hinv : ∀ q, ((mutationsAfter settings noCalls actions).process
      q).Truthful (mutationsAfter settings noCalls actions).shared.jobs := by
    refine (mutations settings).machine.run_invariant_under (s := noCalls)
      (P := fun c => ∀ q, (c.process q).Truthful c.shared.jobs)
      (C := fun c x => ∀ op, (c.process x.1).operation x.2 = some op →
        ∀ q, (c.process q).Undisturbed settings c.shared.jobs op)
      (fun _ => trivial) ?_ ?_
    · rintro c ⟨n, a⟩ htruthful hundisturbed q
      have hstep := mutation_step settings n c.shared (c.process n) a
      by_cases hq : q = n
      · subst hq
        simpa [Concurrent.machine] using hstep.truthful (htruthful q)
          fun op hop => hundisturbed op hop q
      · have hkeep : (c.process q).Truthful
            ((mutations settings).act n c.shared (c.process n) a).1.jobs := by
          rcases hstep.jobs with ⟨-, hjobs⟩ | ⟨op, hop, hjobs⟩
          · rw [hjobs]
            exact htruthful q
          · rw [hjobs]
            exact (htruthful q).step (hundisturbed op hop q)
        simpa [Concurrent.machine, Function.update_of_ne hq] using hkeep
    · rintro before ⟨n, a⟩ after hsplit
      exact hcalm before n a after hsplit
  have hpid := hinv pid
  rw [hraised] at hpid
  exact hpid

/-- A cancellation of a claimed job. -/
def refusedCancel : List (ℕ × MutationAction) :=
  [(1, .other (sampleSubmit 1)), (1, .other (.claimJob 0 1 "worker" 7 none)),
   (0, .startCancel 1), (0, .go), (0, .go)]

theorem conflicts_tell_the_truth_processing :
    (mutationsAfter sampleSettings noCalls refusedCancel).process 0 =
        .raised (.jobConflict 1 "cancel" "processing") ∧
      (ServiceError.jobConflict 1 "cancel" "processing").isTruthful = true := by
  have hraised : (mutationsAfter sampleSettings noCalls
      refusedCancel).process 0 =
        .raised (.jobConflict 1 "cancel" "processing") := rfl
  refine ⟨hraised, conflicts_tell_the_truth sampleSettings ?_ hraised⟩
  rintro before pid a after hsplit op hop q
  -- No call is being explained before the last step, which is a read.
  rcases before with - | ⟨x, - | ⟨x, - | ⟨x, - | ⟨x, - | ⟨x, before⟩⟩⟩⟩⟩ <;>
    simp only [refusedCancel, List.nil_append, List.cons_append,
      List.cons.injEq] at hsplit
  · trivial
  · obtain ⟨rfl, -⟩ := hsplit
    rcases q with - | - | q <;> trivial
  · obtain ⟨rfl, rfl, -⟩ := hsplit
    rcases q with - | - | q <;> trivial
  · obtain ⟨rfl, rfl, rfl, -⟩ := hsplit
    rcases q with - | - | q <;> trivial
  · obtain ⟨rfl, rfl, rfl, rfl, hlast, -⟩ := hsplit
    cases hlast
    cases hop
  · simp at hsplit

/-- A worker fails its attempt while a cancellation is being explained. -/
def misleadingCancel : List (ℕ × MutationAction) :=
  [(1, .other (sampleSubmit 1)), (1, .other (.claimJob 0 1 "worker" 7 none)),
   (0, .startCancel 1), (0, .go),
   (1, .other (.failAttempt 1 ⟨1, "worker", 7, 1, 3⟩ "boom")), (0, .go)]

/-- A worker fails its third attempt while a retry is being explained. -/
def misleadingRetry : List (ℕ × MutationAction) :=
  [(1, .other (sampleSubmit 1)), (1, .other (.claimJob 0 1 "worker" 7 none)),
   (1, .other (.failAttempt 1 ⟨1, "worker", 7, 1, 3⟩ "boom")),
   (1, .other (.activateDueScheduledJobs (seconds 60) 10 [])),
   (1, .other (.claimJob (seconds 60) 1 "worker" 8 none)),
   (1, .other (.failAttempt (seconds 61) ⟨1, "worker", 8, 2, 3⟩ "boom")),
   (1, .other (.activateDueScheduledJobs (seconds 200) 10 [])),
   (1, .other (.claimJob (seconds 200) 1 "worker" 9 none)),
   (0, .startRetry 1), (0, .go),
   (1, .other (.failAttempt (seconds 201) ⟨1, "worker", 9, 3, 3⟩ "boom")),
   (0, .go)]

theorem conflicts_can_mislead :
    (∃ e, (mutationsAfter sampleSettings noCalls misleadingCancel).process 0 =
        .raised e ∧ e.isTruthful = false ∧
      translateMutation e =
        some (409, "cannot cancel a job that is scheduled")) ∧
    ∃ e, (mutationsAfter sampleSettings noCalls misleadingRetry).process 0 =
        .raised e ∧ e.isTruthful = false ∧
      translateMutation e =
        some (409, "cannot retry a job that is failed") :=
  ⟨⟨_, rfl, by decide, by decide⟩, ⟨_, rfl, by decide, by decide⟩⟩

end JobQueue
