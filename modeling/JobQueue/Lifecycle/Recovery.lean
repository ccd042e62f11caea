import JobQueue.Lifecycle.Fencing

/-!
# Recovery sweeps

A sweep settles its whole batch in one transaction, so a single row that
raised would undo the batch and block recovery for ever.  On the rows that can
occur nothing raises: every selected row carries an attempt, the retry table
covers the attempts that have a successor, and the repeated conditions of the
`UPDATE` agree with the counters the attempt has captured.
-/

namespace JobQueue

open Support

/-- What the sweep returns for a selected row. -/
structure Recovers (now : Time) (job : Job) (x : Attempt × AttemptResult) :
    Prop where
  attempt : Attempt.of job = .ok x.1
  outcome : x.2.outcome = if job.attemptCount < job.maxAttempts then
    .retryScheduled else .permanentlyFailed
  row : x.2.job = (failureChange .recovery now x.1 leaseExpiredError
    x.2.outcome).apply job

/-- A row the sweep selects. -/
structure Expired (t : Jobs) (now : Time) (job : Job) : Prop where
  row : t.find? job.id = some job
  processing : job.status = .processing
  lease : job.leaseExpired now = true

theorem expired_of_mem_selectExpired {t : Jobs} {now : Time} {limit : ℕ}
    {locked : List UUID} {job : Job}
    (h : job ∈ selectExpired t now limit locked) : Expired t now job := by
  obtain ⟨hmem, hexpired⟩ := KeyedTable.mem_selectOrdered h
  simp only [Bool.and_eq_true, decide_eq_true_eq] at hexpired
  exact ⟨KeyedTable.find?_of_mem hmem, hexpired.1.1, hexpired.1.2⟩

/-- A well-formed `PROCESSING` row carries an attempt. -/
theorem Job.Wellformed.exists_attempt {r : Job} (h : r.Wellformed)
    (hr : r.status = .processing) : ∃ a, Attempt.of r = .ok a := by
  have hworker := h.ownership.worker.mp hr
  have htoken := h.ownership.token.mp hworker
  obtain ⟨workerId, hw⟩ := Option.isSome_iff_exists.mp hworker
  obtain ⟨token, ht⟩ := Option.isSome_iff_exists.mp htoken
  exact ⟨_, by simp only [Attempt.of, hw, ht]; rfl⟩

theorem Expired.live {t : Jobs} {now : Time} {job : Job} {a : Attempt}
    (h : Expired t now job) (hwf : Jobs.Wellformed t)
    (ha : Attempt.of job = .ok a) : Live t a job := by
  have hid := (Attempt.of_eq_ok_iff.mp ha).1
  refine ⟨?_, ⟨h.processing, ha⟩, hwf _ _ h.row⟩
  rw [← hid]
  exact h.row

theorem failureOutcome_of {job : Job} {a : Attempt}
    (ha : Attempt.of job = .ok a) :
    a.failureOutcome = if job.attemptCount < job.maxAttempts then
      .retryScheduled else .permanentlyFailed := by
  obtain ⟨-, -, -, hcount, hmax⟩ := Attempt.of_eq_ok_iff.mp ha
  simp [Attempt.failureOutcome, Attempt.hasAttemptsLeft, hcount, hmax]

/-- Settling a batch of expired rows raises nothing, settles every one, and
touches no other row. -/
theorem recoverRows_total {now : Time} {jobs : List Job} {t : Jobs}
    (hwf : Jobs.Wellformed t) (hexpired : ∀ job ∈ jobs, Expired t now job)
    (hnodup : (jobs.map Job.id).Nodup) :
    ∃ t' results, recoverRows now jobs t = .ok (t', results) ∧
      List.Forall₂ (Recovers now) jobs results ∧
      (∀ x ∈ results, ∃ job ∈ jobs, Recovers now job x ∧
        t'.find? x.1.jobId = some x.2.job) ∧
      ∀ id, id ∉ jobs.map Job.id → t'.find? id = t.find? id := by
  induction jobs generalizing t with
  | nil =>
      exact ⟨t, [], rfl, .nil, by simp, fun _ _ => rfl⟩
  | cons job rest ih =>
      have hjob := hexpired job (by simp)
      obtain ⟨a, ha⟩ := (hwf _ _ hjob.row).exists_attempt hjob.processing
      obtain ⟨t₁, happly, hrw⟩ := (hjob.live hwf ha).applyFailedAttempt
        .recovery now hjob.lease leaseExpiredError
      have hid : job.id = a.jobId := (Attempt.of_eq_ok_iff.mp ha).1
      rw [List.map_cons, List.nodup_cons, hid] at hnodup
      have hrest : ∀ other ∈ rest, Expired t₁ now other := by
        intro other hother
        obtain ⟨hrow, hprocessing, hlease⟩ := hexpired other (by simp [hother])
        refine ⟨?_, hprocessing, hlease⟩
        rw [hrw.others other.id, hrow]
        rintro heq
        exact hnodup.1 (heq ▸ List.mem_map_of_mem hother)
      obtain ⟨t₂, results, hrec, hall, hafter, hothers⟩ := ih
        (applyFailedAttempt_wellformed hwf .recovery happly) hrest hnodup.2
      have hrecovers : Recovers now job (a, ⟨a.failureOutcome, (failureChange
          .recovery now a leaseExpiredError a.failureOutcome).apply job⟩) :=
        ⟨ha, failureOutcome_of ha, rfl⟩
      refine ⟨t₂, _, bind_eq_ok.mpr ⟨a, ha, bind_eq_ok.mpr ⟨_, happly,
        bind_eq_ok.mpr ⟨_, hrec, rfl⟩⟩⟩, .cons hrecovers hall, ?_, ?_⟩
      · intro x hx
        rcases List.mem_cons.mp hx with rfl | hx
        · exact ⟨job, by simp, hrecovers,
            (hothers _ hnodup.1).trans hrw.after⟩
        · obtain ⟨other, hother, hrow⟩ := hafter x hx
          exact ⟨other, List.mem_cons_of_mem _ hother, hrow⟩
      · intro id hnot
        rw [List.map_cons, List.mem_cons, not_or, hid] at hnot
        rw [hothers id hnot.2, hrw.others id hnot.1]

/-- `a` was handed out by a claim of the run. -/
def HandedOut (settings : Settings) (ops : List Op) (a : Attempt) : Prop :=
  ∃ before op after, ops = before ++ op :: after ∧
    Obtained settings before op a

theorem HandedOut.schedulable {settings : Settings} {ops : List Op}
    {a : Attempt} (h : HandedOut settings ops a) : a.Schedulable := by
  obtain ⟨before, op, after, -, hobtained⟩ := h
  obtain ⟨-, r, hr⟩ := hobtained.live
  exact hr.holds.schedulable hr.wellformed

/-- Recording a failure raises `ValueError` only for want of a retry delay. -/
theorem failAttempt_ne_valueError {t : Jobs} {now : Time} {a : Attempt}
    {error message : String} (ha : a.Schedulable) :
    failAttempt t now a error ≠ .error (.valueError message) := by
  have hwrite : ∀ p s
      (answer : Jobs × Option Job →
        Except ServiceError (Jobs × Option AttemptResult)),
      (∀ x, ∃ y, answer x = .ok y) →
      executeFirst t p s >>= answer ≠ .error (.valueError message) := by
    intro p s answer hanswer h
    rcases bind_eq_error.mp h with hfirst | ⟨x, -, hret⟩
    · obtain ⟨name, hname⟩ := executeFirst_eq_error hfirst
      cases hname
    · obtain ⟨y, hy⟩ := hanswer x
      rw [hy] at hret
      cases hret
  intro h
  rcases bind_eq_error.mp h with happly | ⟨⟨t', result⟩, -, hret⟩
  · unfold applyFailedAttempt at happly
    split at happly
    · next hleft =>
        obtain ⟨delay, hdelay⟩ := ha hleft
        rw [hdelay] at happly
        exact hwrite _ _ _ (fun _ => ⟨_, rfl⟩) happly
    · exact hwrite _ _ _ (fun _ => ⟨_, rfl⟩) happly
  · cases result with
    | none => cases hret
    | some result => cases hret

/-- In every reachable state, for every limit and whatever rows others have
locked: a recovery sweep returns, with exactly one result for each row it
selects, in order; the row is rescheduled precisely if it has attempts left,
and then the retry delay is asked for attempt 1 or 2 only.  And recording the
failure of an attempt handed out by a claim never raises `ValueError`. -/
theorem recovery_never_aborts (settings : Settings) (ops : List Op)
    (now : Time) :
    (∀ limit locked, ∃ t' results,
      recoverExpiredLeases (tableAfter settings ops) now limit locked =
          .ok (t', results) ∧
        List.Forall₂ (Recovers now)
          (selectExpired (tableAfter settings ops) now limit locked)
          results) ∧
    (∀ limit locked, ∀ job ∈
        selectExpired (tableAfter settings ops) now limit locked,
      job.attemptCount < job.maxAttempts →
        job.attemptCount = 1 ∨ job.attemptCount = 2) ∧
    ∀ a error message, HandedOut settings ops a →
      failAttempt (tableAfter settings ops) now a error ≠
        .error (.valueError message) := by
  have hwf := tableAfter_wellformed settings ops
  refine ⟨fun limit locked => ?_, fun limit locked job hjob hlt => ?_,
    fun a error message ha => failAttempt_ne_valueError ha.schedulable⟩
  · obtain ⟨t', results, hrecover, hall, -⟩ := recoverRows_total hwf
      (fun job hjob => expired_of_mem_selectExpired hjob)
      (KeyedTable.nodup_selectOrdered _ _ _ limit)
    exact ⟨t', results, hrecover, hall⟩
  · have hexpired := expired_of_mem_selectExpired hjob
    have hcounters := (hwf _ _ hexpired.row).counters
    have hpos := hcounters.worked (Or.inl hexpired.processing)
    have hmax := hcounters.maxAttempts
    omega

end JobQueue
