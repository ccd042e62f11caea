import JobQueue.Lifecycle.Refinement

/-!
# The row lifecycle invariant

What the columns of a row say about one another in every reachable state.
Ownership fields are set exactly while the row is `PROCESSING`; the counters
stay within the bounds the check constraints demand, and leave a waiting row
claimable; the outcome columns agree with the status.
-/

namespace JobQueue

open Support

/-- The ownership fields are set exactly while the row is `PROCESSING`. -/
structure Job.OwnershipConsistent (r : Job) : Prop where
  worker : r.status = .processing ↔ r.workerId.isSome
  token : r.workerId.isSome ↔ r.executionToken.isSome
  lease : r.executionToken.isSome ↔ r.leaseExpiresAt.isSome

/-- The counters respect their bounds and the status they go with. -/
structure Job.CountersConsistent (r : Job) : Prop where
  maxAttempts : r.maxAttempts = 3
  attempt_nonneg : 0 ≤ r.attemptCount
  attempt_le : r.attemptCount ≤ r.maxAttempts
  progress_nonneg : 0 ≤ r.progress
  progress_le : r.progress ≤ 100
  waiting : r.status = .pending ∨ r.status = .scheduled ∨
    r.status = .cancelled → r.attemptCount < r.maxAttempts
  worked : r.status = .processing ∨ r.status = .completed →
    1 ≤ r.attemptCount
  exhausted : r.status = .failed → r.attemptCount = r.maxAttempts
  started : r.startedAt.isSome ↔ 1 ≤ r.attemptCount

structure Job.OutcomeConsistent (r : Job) : Prop where
  failed : r.status = .failed → r.error.isSome
  scheduled : r.status = .scheduled → r.scheduledAt.isSome
  completedAt : r.completedAt.isSome ↔
    r.status = .completed ∨ r.status = .failed
  result : r.result.isSome ↔ r.status = .completed
  completed : r.status = .completed → r.progress = 100 ∧ r.error = none
  key : r.idempotencyExpiresAt.isSome ↔ truthyKey r.idempotencyKey = true

/-- The row lifecycle invariant. -/
structure Job.Wellformed (r : Job) : Prop where
  ownership : r.OwnershipConsistent
  counters : r.CountersConsistent
  outcome : r.OutcomeConsistent

theorem Job.IsNew.wellformed {row : Job} (h : row.IsNew) :
    row.Wellformed := by
  obtain ⟨request, scheduledAt, key, now, createdAt, id, rfl⟩ := h.eq_newJob
  by_cases hfuture : scheduledAt.any (now < ·) = true
  · have hsome : scheduledAt.isSome := by
      cases hs : scheduledAt with
      | none => simp [hs] at hfuture
      | some x => rfl
    refine ⟨⟨?_, ?_, ?_⟩, ⟨?_, ?_, ?_, ?_, ?_, ?_, ?_, ?_, ?_⟩,
      ⟨?_, ?_, ?_, ?_, ?_, ?_⟩⟩ <;>
      simp [newJob, hfuture, defaultMaxAttempts, hsome]
  · refine ⟨⟨?_, ?_, ?_⟩, ⟨?_, ?_, ?_, ?_, ?_, ?_, ?_, ?_, ?_⟩,
      ⟨?_, ?_, ?_, ?_, ?_, ?_⟩⟩ <;>
      simp [newJob, hfuture, defaultMaxAttempts]

theorem clampProgress_bounds (progress : ℤ) :
    0 ≤ clampProgress progress ∧ clampProgress progress ≤ 100 := by
  unfold clampProgress
  omega

theorem Change.ownership {r : Job} {c : Change} (hc : c.Enabled r)
    (h : r.OwnershipConsistent) : (c.apply r).OwnershipConsistent := by
  obtain ⟨hworker, htoken, hlease⟩ := h
  cases c with
  | created row => exact hc.elim
  | keyReleased => exact ⟨hworker, htoken, hlease⟩
  | claimed now workerId token deadline =>
      constructor <;> simp [Change.apply, claim]
  | leaseExtended now a deadline =>
      have howned := (ownedBy_iff.mp hc).2.2.2
      refine ⟨hworker, htoken, ?_⟩
      simp [Change.apply, setLease, howned]
  | progressed a progress => exact ⟨hworker, htoken, hlease⟩
  | completed now a result =>
      constructor <;> simp [Change.apply, complete, releasedOwnership]
  | retryScheduled cause now a delay error =>
      constructor <;> simp [Change.apply, scheduleRetry, releasedOwnership]
  | permanentlyFailed cause now a error =>
      constructor <;> simp [Change.apply, failPermanently, releasedOwnership]
  | activated now =>
      obtain ⟨hstatus, -⟩ := Job.isDue_iff.mp hc
      refine ⟨?_, htoken, hlease⟩
      simpa [Change.apply, activate, hstatus] using hworker
  | cancelled =>
      constructor <;> simp [Change.apply, cancel, releasedOwnership]
  | retried =>
      constructor <;> simp [Change.apply, restart, releasedOwnership]

theorem Change.counters {r : Job} {c : Change} (hc : c.Enabled r)
    (h : r.CountersConsistent) : (c.apply r).CountersConsistent := by
  obtain ⟨hmax, hnonneg, hle, hp0, hp100, hwaiting, hworked, hexhausted,
    hstarted⟩ := h
  cases c with
  | created row => exact hc.elim
  | keyReleased =>
      exact ⟨hmax, hnonneg, hle, hp0, hp100, hwaiting, hworked, hexhausted,
        hstarted⟩
  | claimed now workerId token deadline =>
      obtain ⟨-, hlt⟩ := Job.isClaimable_iff.mp hc
      constructor <;> simp [Change.apply, claim] <;> omega
  | leaseExtended now a deadline =>
      exact ⟨hmax, hnonneg, hle, hp0, hp100, hwaiting, hworked, hexhausted,
        hstarted⟩
  | progressed a progress =>
      obtain ⟨h0, h100⟩ := clampProgress_bounds progress
      exact ⟨hmax, hnonneg, hle, h0, h100, hwaiting, hworked, hexhausted,
        hstarted⟩
  | completed now a result =>
      have hstatus := (ownedBy_iff.mp hc).2.1
      have hpos := hworked (Or.inl hstatus)
      refine ⟨hmax, hnonneg, hle, ?_, ?_, ?_, ?_, ?_, hstarted⟩ <;>
        simp [Change.apply, complete, releasedOwnership, hpos]
  | retryScheduled cause now a delay error =>
      refine ⟨hmax, hnonneg, hle, hp0, hp100, ?_, ?_, ?_, hstarted⟩ <;>
        simp [Change.apply, scheduleRetry, releasedOwnership, hc.2.1]
  | permanentlyFailed cause now a error =>
      have heq : r.attemptCount = r.maxAttempts := le_antisymm hle hc.2.1
      refine ⟨hmax, hnonneg, hle, hp0, hp100, ?_, ?_, ?_, hstarted⟩ <;>
        simp [Change.apply, failPermanently, releasedOwnership, heq]
  | activated now =>
      obtain ⟨hstatus, -⟩ := Job.isDue_iff.mp hc
      have hlt := hwaiting (Or.inr (Or.inl hstatus))
      refine ⟨hmax, hnonneg, hle, hp0, hp100, ?_, ?_, ?_, hstarted⟩ <;>
        simp [Change.apply, activate, hlt]
  | cancelled =>
      have hlt : r.attemptCount < r.maxAttempts := by
        rcases cancellable_iff.mp hc with hs | hs
        · exact hwaiting (Or.inl hs)
        · exact hwaiting (Or.inr (Or.inl hs))
      refine ⟨hmax, hnonneg, hle, hp0, hp100, ?_, ?_, ?_, hstarted⟩ <;>
        simp [Change.apply, cancel, releasedOwnership, hlt]
  | retried =>
      constructor <;> simp [Change.apply, restart, releasedOwnership, hmax]

theorem Change.outcome {r : Job} {c : Change} (hc : c.Enabled r)
    (h : r.OutcomeConsistent) : (c.apply r).OutcomeConsistent := by
  obtain ⟨hfailed, hscheduled, hcompletedAt, hresult, hcompleted, hkey⟩ := h
  cases c with
  | created row => exact hc.elim
  | keyReleased =>
      exact ⟨hfailed, hscheduled, hcompletedAt, hresult, hcompleted,
        by simp [Change.apply, releaseKey, truthyKey]⟩
  | claimed now workerId token deadline =>
      obtain ⟨hstatus, -⟩ := Job.isClaimable_iff.mp hc
      simp only [hstatus] at hcompletedAt hresult
      refine ⟨?_, ?_, ?_, ?_, ?_, hkey⟩ <;>
        simp_all [Change.apply, claim]
  | leaseExtended now a deadline =>
      exact ⟨hfailed, hscheduled, hcompletedAt, hresult, hcompleted, hkey⟩
  | progressed a progress =>
      have hstatus := (ownedBy_iff.mp hc).2.1
      refine ⟨hfailed, hscheduled, hcompletedAt, hresult, ?_, hkey⟩
      simp [Change.apply, setProgress, hstatus]
  | completed now a result =>
      refine ⟨?_, ?_, ?_, ?_, ?_, hkey⟩ <;>
        simp [Change.apply, complete, releasedOwnership]
  | retryScheduled cause now a delay error =>
      have hstatus := (ownedBy_iff.mp hc.1).2.1
      simp only [hstatus] at hcompletedAt hresult
      refine ⟨?_, ?_, ?_, ?_, ?_, hkey⟩ <;>
        simp_all [Change.apply, scheduleRetry, releasedOwnership]
  | permanentlyFailed cause now a error =>
      have hstatus := (ownedBy_iff.mp hc.1).2.1
      simp only [hstatus] at hresult
      refine ⟨?_, ?_, ?_, ?_, ?_, hkey⟩ <;>
        simp_all [Change.apply, failPermanently, releasedOwnership]
  | activated now =>
      obtain ⟨hstatus, -⟩ := Job.isDue_iff.mp hc
      simp only [hstatus] at hcompletedAt hresult
      refine ⟨?_, ?_, ?_, ?_, ?_, hkey⟩ <;>
        simp_all [Change.apply, activate]
  | cancelled =>
      have hidle : r.completedAt = none ∧ r.result = none := by
        rcases cancellable_iff.mp hc with hs | hs <;> simp_all
      refine ⟨?_, ?_, ?_, ?_, ?_, hkey⟩ <;>
        simp_all [Change.apply, cancel, releasedOwnership]
  | retried =>
      refine ⟨?_, ?_, ?_, ?_, ?_, hkey⟩ <;>
        simp [Change.apply, restart, releasedOwnership]

/-- Every change keeps the invariant. -/
theorem Change.wellformed {r : Job} {c : Change} (hc : c.Enabled r)
    (h : r.Wellformed) : (c.apply r).Wellformed :=
  ⟨Change.ownership hc h.ownership, Change.counters hc h.counters,
    Change.outcome hc h.outcome⟩

/-! ## Tables -/

def Jobs.Wellformed (t : Jobs) : Prop :=
  ∀ id r, t.find? id = some r → r.Wellformed

theorem Jobs.Wellformed.of_mem {t : Jobs} (h : Jobs.Wellformed t) {r : Job}
    (hr : r ∈ t.rows) : r.Wellformed :=
  h r.id r (KeyedTable.find?_of_mem hr)

theorem RowPath.wellformed {r? s? : Option Job} {cs : List Change}
    (h : RowPath r? cs s?) (hr : ∀ r, r? = some r → r.Wellformed) :
    ∀ s, s? = some s → s.Wellformed := by
  induction h with
  | nil => exact hr
  | snoc _ hstep ih =>
      cases hstep with
      | create hnew =>
          intro s hs
          cases hs
          exact hnew.wellformed
      | change hc =>
          intro s hs
          cases hs
          exact Change.wellformed hc (ih _ rfl)

/-- A table whose rows move along changes stays well formed. -/
theorem Jobs.Wellformed.of_path {t t' : Jobs} (h : Jobs.Wellformed t)
    (hpath : ∀ id, ∃ cs, RowPath (t.find? id) cs (t'.find? id)) :
    Jobs.Wellformed t' := by
  intro id
  obtain ⟨cs, hcs⟩ := hpath id
  exact hcs.wellformed (h id)

theorem tableAfter_wellformed (settings : Settings) (ops : List Op) :
    Jobs.Wellformed (tableAfter settings ops) := by
  intro id
  exact (service_run_path settings ops id).wellformed (by simp)

/-! ## No step trips a check constraint -/

/-- The call did not fail on a check constraint. -/
def PassesChecks {α : Type} (x : Except ServiceError α) : Prop :=
  ∀ name, x ≠ .error (.integrity (.check name))

theorem PassesChecks.ok {α : Type} (x : α) :
    PassesChecks (.ok x : Except ServiceError α) := by
  intro name h
  cases h

theorem PassesChecks.bind {α β : Type} {x : Except ServiceError α}
    {f : α → Except ServiceError β} (hx : PassesChecks x)
    (hf : ∀ a, x = .ok a → PassesChecks (f a)) : PassesChecks (x >>= f) := by
  cases x with
  | error e => exact fun name h => hx name (by cases h; rfl)
  | ok a => exact hf a rfl

theorem PassesChecks.answer {α : Type} {wrap : α → Reply}
    {x : Except ServiceError (Jobs × α)} (hx : PassesChecks x) :
    PassesChecks (JobQueue.answer wrap x) := by
  cases x with
  | error e => exact fun name h => hx name (by cases h; rfl)
  | ok result => exact PassesChecks.ok _

theorem Job.Wellformed.violatedCheck {r : Job} (h : r.Wellformed) :
    r.violatedCheck = none := by
  have hmax := h.counters.maxAttempts
  exact r.violatedCheck_eq_none_iff.mpr ⟨h.counters.attempt_nonneg,
    by omega, h.counters.attempt_le, h.counters.progress_nonneg,
    h.counters.progress_le⟩

/-- An update that moves rows by a change passes the checks. -/
theorem executeUpdate_passesChecks {t : Jobs} {p : Job → Bool}
    {a : Assignment Job.id} {c : Change} (hwf : Jobs.Wellformed t)
    (hc : ∀ r, p r = true → c.Enabled r ∧ c.apply r = a.set r) :
    PassesChecks (executeUpdate t p a) := by
  have hnone : (t.returning p a).findSome? Job.violatedCheck = none := by
    apply List.findSome?_eq_none_iff.mpr
    intro s hs
    obtain ⟨r, hr, rfl⟩ := List.mem_map.mp hs
    obtain ⟨hmem, hpr⟩ := KeyedTable.mem_select.mp hr
    obtain ⟨henabled, happly⟩ := hc r hpr
    rw [← happly]
    exact (Change.wellformed henabled (hwf.of_mem hmem)).violatedCheck
  rw [executeUpdate, hnone]
  exact PassesChecks.ok _

theorem executeFirst_passesChecks {t : Jobs} {p : Job → Bool}
    {a : Assignment Job.id} {c : Change} (hwf : Jobs.Wellformed t)
    (hc : ∀ r, p r = true → c.Enabled r ∧ c.apply r = a.set r) :
    PassesChecks (executeFirst t p a) :=
  (executeUpdate_passesChecks hwf hc).bind fun _ _ => PassesChecks.ok _

theorem releaseExpiredKey_passesChecks {t : Jobs} (hwf : Jobs.Wellformed t)
    (key : String) (now : Time) :
    PassesChecks (releaseExpiredKey t key now) :=
  (executeUpdate_passesChecks (c := .keyReleased) hwf
    fun _ _ => ⟨trivial, rfl⟩).bind fun _ _ => PassesChecks.ok _

theorem insertJob_passesChecks {t : Jobs} (hwf : Jobs.Wellformed t)
    (clock : SubmitClock) (id : UUID) (request : JobCreateRequest)
    (key : Option String) :
    PassesChecks (insertJob t clock id request key) := by
  have hrelease : PassesChecks (releaseBeforeInsert t key clock.release) := by
    unfold releaseBeforeInsert
    split
    · exact releaseExpiredKey_passesChecks hwf _ _
    · exact PassesChecks.ok _
  have hbuild : PassesChecks (buildJob request key clock.build clock.database
      id) := by
    cases hrange : request.inUtcRange with
    | true =>
        rw [buildJob_of_inUtcRange hrange]
        exact PassesChecks.ok _
    | false =>
        rw [buildJob_of_outOfRange hrange]
        exact fun name h => by cases h
  refine hrelease.bind fun ⟨t₁, released⟩ _ => hbuild.bind fun row hrow => ?_
  have hcheck : row.violatedCheck = none :=
    Job.Wellformed.violatedCheck
      (Job.IsNew.wellformed ⟨request, key, _, _, id, hrow⟩)
  have hinsert : PassesChecks (executeInsert t₁ row) := by
    rw [executeInsert, hcheck]
    dsimp only
    split
    · split
      · exact PassesChecks.ok _
      · exact fun name h => by cases h
    · exact fun name h => by cases h
  cases hins : executeInsert t₁ row with
  | ok t₂ => exact PassesChecks.ok _
  | error e =>
      rw [hins] at hinsert
      have herror : PassesChecks (throw e :
          Except ServiceError (Jobs × Submitted)) := by
        intro name h
        cases h
        exact hinsert name rfl
      dsimp only
      split
      · split
        · exact PassesChecks.ok _
        · exact herror
      · exact herror

theorem applyFailedAttempt_passesChecks {t : Jobs} (hwf : Jobs.Wellformed t)
    (now : Time) (a : Attempt) (error : String) (cause : Cause) :
    PassesChecks (applyFailedAttempt t now a error cause.guarded) := by
  unfold applyFailedAttempt
  split
  · refine PassesChecks.bind ?_ fun delay hdelay => PassesChecks.bind
      (executeFirst_passesChecks
        (c := .retryScheduled cause now a delay error) hwf ?_)
      fun _ _ => PassesChecks.ok _
    · unfold retryDelaySeconds
      split
      · exact PassesChecks.ok _
      · exact fun name h => by cases h
    · intro r hr
      simp only [Bool.and_eq_true, decide_eq_true_eq] at hr
      exact ⟨⟨hr.1.1, hr.1.2, hdelay, Cause.allows_of_guarded hr.2⟩, rfl⟩
  · refine PassesChecks.bind (executeFirst_passesChecks
      (c := .permanentlyFailed cause now a error) hwf ?_)
      fun _ _ => PassesChecks.ok _
    intro r hr
    simp only [Bool.and_eq_true, decide_eq_true_eq] at hr
    exact ⟨⟨hr.1.1, hr.1.2, Cause.allows_of_guarded hr.2⟩, rfl⟩

theorem applyFailedAttempt_wellformed {t t' : Jobs}
    (hwf : Jobs.Wellformed t) {now : Time} {a : Attempt} {error : String}
    (cause : Cause) {result : Option AttemptResult}
    (h : applyFailedAttempt t now a error cause.guarded = .ok (t', result)) :
    Jobs.Wellformed t' := by
  rcases applyFailedAttempt_cases cause h with
    ⟨-, rfl⟩ | ⟨r, outcome, henabled, -, hrw⟩
  · exact hwf
  · exact hwf.of_path fun id => ⟨_, path_of_rewrites henabled hrw id⟩

theorem recoverRows_passesChecks {now : Time} {jobs : List Job} {t : Jobs}
    (hwf : Jobs.Wellformed t) : PassesChecks (recoverRows now jobs t) := by
  induction jobs generalizing t with
  | nil => exact PassesChecks.ok _
  | cons job rest ih =>
      have hof : PassesChecks (Attempt.of job) := by
        unfold Attempt.of
        split
        · exact PassesChecks.ok _
        · exact fun name h => by cases h
      refine hof.bind fun a _ => PassesChecks.bind
        (applyFailedAttempt_passesChecks hwf now a _ .recovery) ?_
      rintro ⟨t₁, result⟩ happly
      refine (ih (applyFailedAttempt_wellformed hwf .recovery happly)).bind ?_
      rintro ⟨t₂, recovered⟩ -
      cases result <;> exact PassesChecks.ok _

theorem createJob_passesChecks {t : Jobs} (hwf : Jobs.Wellformed t)
    (clock : SubmitClock) (id : UUID) (request : JobCreateRequest)
    (key : Option String) :
    PassesChecks (createJob t clock id request key) := by
  unfold createJob
  split
  · split
    · exact PassesChecks.ok _
    · exact insertJob_passesChecks hwf clock id request key
  · exact insertJob_passesChecks hwf clock id request key

theorem claimJob_passesChecks (settings : Settings) {t : Jobs}
    (hwf : Jobs.Wellformed t) (now : Time) (jobId : UUID) (workerId : String)
    (token : UUID) (leaseSeconds : Option Duration) :
    PassesChecks (claimJob settings t now jobId workerId token
      leaseSeconds) := by
  refine executeFirst_passesChecks (c := .claimed now workerId token
    (leaseDeadline settings now leaseSeconds)) hwf ?_
  intro r hr
  simp only [Bool.and_eq_true] at hr
  exact ⟨hr.2, rfl⟩

theorem extendLease_passesChecks (settings : Settings) {t : Jobs}
    (hwf : Jobs.Wellformed t) (now : Time) (a : Attempt)
    (leaseSeconds : Option Duration) :
    PassesChecks (extendLease settings t now a leaseSeconds) := by
  refine PassesChecks.bind (executeFirst_passesChecks
    (c := .leaseExtended now a (leaseDeadline settings now leaseSeconds)) hwf
    fun r hr => ⟨hr, rfl⟩) ?_
  rintro ⟨t₁, row⟩ -
  dsimp only
  split
  · exact PassesChecks.ok _
  · exact fun name h => by cases h

theorem updateProgress_passesChecks {t : Jobs} (hwf : Jobs.Wellformed t)
    (a : Attempt) (progress : ℤ) :
    PassesChecks (updateProgress t a progress) := by
  refine PassesChecks.bind (executeUpdate_passesChecks
    (c := .progressed a progress) hwf fun r hr => ⟨hr, rfl⟩) ?_
  rintro ⟨t₁, rows⟩ -
  dsimp only
  split
  · exact PassesChecks.ok _
  · exact fun name h => by cases h

theorem completeJob_passesChecks {t : Jobs} (hwf : Jobs.Wellformed t)
    (now : Time) (a : Attempt) (result : Jsonb) :
    PassesChecks (completeJob t now a result) := by
  refine PassesChecks.bind (executeFirst_passesChecks
    (c := .completed now a result) hwf fun r hr => ⟨hr, rfl⟩) ?_
  rintro ⟨t₁, row⟩ -
  cases row with
  | some job => exact PassesChecks.ok _
  | none => exact fun name h => by cases h

theorem failAttempt_passesChecks {t : Jobs} (hwf : Jobs.Wellformed t)
    (now : Time) (a : Attempt) (error : String) :
    PassesChecks (failAttempt t now a error) := by
  refine PassesChecks.bind
    (applyFailedAttempt_passesChecks hwf now a error .worker) ?_
  rintro ⟨t₁, result⟩ -
  cases result with
  | some result => exact PassesChecks.ok _
  | none => exact fun name h => by cases h

theorem activateSelected_passesChecks {t : Jobs} (hwf : Jobs.Wellformed t)
    (now : Time) (due : List UUID) :
    PassesChecks (activateSelected t now due) := by
  refine executeUpdate_passesChecks (c := .activated now) hwf ?_
  intro r hr
  simp only [Bool.and_eq_true] at hr
  exact ⟨hr.2, rfl⟩

/-- Neither a cancellation that takes effect nor one that does not. -/
theorem cancelJob_passesChecks {t : Jobs} (hwf : Jobs.Wellformed t)
    (jobId : UUID) : PassesChecks (cancelJob t jobId) := by
  refine PassesChecks.bind (executeFirst_passesChecks (c := .cancelled) hwf
    ?_) ?_
  · intro r hr
    simp only [Bool.and_eq_true] at hr
    exact ⟨hr.2, rfl⟩
  · rintro ⟨t₁, row⟩ -
    cases row with
    | some job => exact PassesChecks.ok _
    | none =>
        refine PassesChecks.bind ?_ fun _ _ => PassesChecks.ok _
        unfold cancelUnmatched
        split
        · exact fun name h => by cases h
        · split
          · exact PassesChecks.ok _
          · exact fun name h => by cases h

theorem retryJob_passesChecks {t : Jobs} (hwf : Jobs.Wellformed t)
    (jobId : UUID) : PassesChecks (retryJob t jobId) := by
  refine PassesChecks.bind (executeFirst_passesChecks (c := .retried) hwf
    ?_) ?_
  · intro r hr
    simp only [Bool.and_eq_true, decide_eq_true_eq] at hr
    exact ⟨hr.2, rfl⟩
  · rintro ⟨t₁, row⟩ -
    cases row with
    | some job => exact PassesChecks.ok _
    | none =>
        have hne : ∀ name, retryUnmatched jobId (getJob t₁ jobId) ≠
            .integrity (.check name) := by
          intro name
          cases getJob t₁ jobId <;> simp [retryUnmatched]
        intro name h
        exact hne name (Except.error.inj h)

/-- On well-formed rows no operation fails on a check constraint. -/
theorem execute_passesChecks (settings : Settings) {t : Jobs}
    (hwf : Jobs.Wellformed t) (op : Op) :
    PassesChecks (op.execute settings t) := by
  cases op with
  | createJob clock id request key =>
      exact (createJob_passesChecks hwf clock id request key).answer
  | insertJob clock id request key =>
      exact (insertJob_passesChecks hwf clock id request key).answer
  | releaseExpiredKey key now =>
      exact (releaseExpiredKey_passesChecks hwf key now).answer
  | claimJob now jobId workerId token leaseSeconds =>
      exact (claimJob_passesChecks settings hwf now jobId workerId token
        leaseSeconds).answer
  | extendLease now a leaseSeconds =>
      exact (extendLease_passesChecks settings hwf now a leaseSeconds).answer
  | updateProgress a progress =>
      exact (updateProgress_passesChecks hwf a progress).answer
  | completeJob now a result =>
      exact (completeJob_passesChecks hwf now a result).answer
  | failAttempt now a error =>
      exact (failAttempt_passesChecks hwf now a error).answer
  | activateDueScheduledJobs now limit locked =>
      exact (activateSelected_passesChecks hwf now _).answer
  | activateSelected now due =>
      exact (activateSelected_passesChecks hwf now due).answer
  | recoverExpiredLeases now limit locked =>
      exact (recoverRows_passesChecks hwf).answer
  | cancelJob jobId => exact (cancelJob_passesChecks hwf jobId).answer
  | retryJob jobId => exact (retryJob_passesChecks hwf jobId).answer

/-- In every state reachable from the empty table, by any sequence of
operations with any arguments, every row satisfies the lifecycle invariant,
and no further operation trips a check constraint. -/
theorem reachable_rows_wellformed (settings : Settings) (ops : List Op) :
    (∀ r ∈ (tableAfter settings ops).rows, r.Wellformed) ∧
      ∀ op, PassesChecks
        ((service settings).step (tableAfter settings ops) op).2 := by
  have hwf := tableAfter_wellformed settings ops
  refine ⟨fun r hr => hwf.of_mem hr, ?_⟩
  intro op name h
  have hpass := execute_passesChecks settings hwf op
  simp only [service] at h
  cases hexec : op.execute settings (tableAfter settings ops) with
  | error e =>
      rw [hexec] at h
      cases h
      exact hpass name hexec
  | ok result =>
      rw [hexec] at h
      cases h

end JobQueue
