import JobQueue.Lifecycle.Ownership
import Mathlib.Data.List.DropRight

/-!
# Attempt accounting

The counter in the row agrees with the calls that were answered.  Claims and
endings are counted over the answered calls of a run; on the side of the row
every change has a balance, and a step of the service changes the counters of
a row by the balance of its changes.
-/

namespace JobQueue

open Support

/-! ## Counting calls -/

def claimsBy (id : UUID) : Op × Outcome → ℕ
  | (.claimJob _ jobId _ _ _, .ok (.claimed (some _))) =>
      if jobId = id then 1 else 0
  | _ => 0

def completionsBy (id : UUID) : Op × Outcome → ℕ
  | (.completeJob _ a _, .ok (.completed _)) =>
      if a.jobId = id then 1 else 0
  | _ => 0

/-- Successful `fail_attempt` calls on the job, and recoveries of it. -/
def failuresBy (id : UUID) : Op × Outcome → ℕ
  | (.failAttempt _ a _, .ok (.attemptFailed _)) =>
      if a.jobId = id then 1 else 0
  | (.recoverExpiredLeases _ _ _, .ok (.recovered results)) =>
      results.countP fun x => x.1.jobId = id
  | _ => 0

/-- The call created the job, or is a successful `retry_job` on it. -/
def startsCycle (id : UUID) : Op × Outcome → Bool
  | (_, .ok (.submitted s)) => s.created && s.job.id = id
  | (.retryJob jobId, .ok (.retried _)) => jobId = id
  | _ => false

def claims (id : UUID) (calls : List (Op × Outcome)) : ℕ :=
  (calls.map (claimsBy id)).sum

def endings (id : UUID) (calls : List (Op × Outcome)) : ℕ :=
  (calls.map fun call => completionsBy id call + failuresBy id call).sum

/-- The calls since the job was created or last retried by hand. -/
def currentCycle (id : UUID) (calls : List (Op × Outcome)) :
    List (Op × Outcome) :=
  calls.rtakeWhile fun call => !startsCycle id call

/-! ## Counting changes -/

def Change.isClaim : Change → Bool
  | .claimed _ _ _ _ => true
  | _ => false

def Change.isCompletion : Change → Bool
  | .completed _ _ _ => true
  | _ => false

def Change.isFailure : Change → Bool
  | .retryScheduled _ _ _ _ _ => true
  | .permanentlyFailed _ _ _ _ => true
  | _ => false

def Change.isStart : Change → Bool
  | .created _ => true
  | .retried => true
  | _ => false

@[simp] theorem failureChange_isFailure (cause : Cause) (now : Time)
    (a : Attempt) (error : String) (outcome : AttemptOutcome) :
    (failureChange cause now a error outcome).isFailure = true := by
  cases outcome <;> rfl

@[simp] theorem failureChange_isClaim (cause : Cause) (now : Time)
    (a : Attempt) (error : String) (outcome : AttemptOutcome) :
    (failureChange cause now a error outcome).isClaim = false := by
  cases outcome <;> rfl

@[simp] theorem failureChange_isCompletion (cause : Cause) (now : Time)
    (a : Attempt) (error : String) (outcome : AttemptOutcome) :
    (failureChange cause now a error outcome).isCompletion = false := by
  cases outcome <;> rfl

@[simp] theorem failureChange_isStart (cause : Cause) (now : Time)
    (a : Attempt) (error : String) (outcome : AttemptOutcome) :
    (failureChange cause now a error outcome).isStart = false := by
  cases outcome <;> rfl

theorem countP_changesFor (id : UUID) (q : Change → Bool)
    (changes : List (UUID × Change)) :
    (changesFor id changes).countP q =
      changes.countP fun x => x.1 = id && q x.2 := by
  simp [changesFor, List.countP_map, List.countP_filter, Function.comp_def,
    Bool.and_comm]

theorem claimsBy_eq (settings : Settings) (id : UUID) (call : Op × Outcome) :
    claimsBy id call =
      (changesFor id (changesOf settings call)).countP Change.isClaim := by
  rw [countP_changesFor]
  unfold changesOf
  split <;> simp [claimsBy, List.countP_map, Function.comp_def, apply_ite,
    List.countP_cons] <;> simp [Change.isClaim]

theorem completionsBy_eq (settings : Settings) (id : UUID)
    (call : Op × Outcome) :
    completionsBy id call =
      (changesFor id (changesOf settings call)).countP
        Change.isCompletion := by
  rw [countP_changesFor]
  unfold changesOf
  split <;> simp [completionsBy, List.countP_map, Function.comp_def,
    apply_ite, List.countP_cons] <;> simp [Change.isCompletion]

theorem failuresBy_eq (settings : Settings) (id : UUID)
    (call : Op × Outcome) :
    failuresBy id call =
      (changesFor id (changesOf settings call)).countP Change.isFailure := by
  rw [countP_changesFor]
  unfold changesOf
  split <;> simp [failuresBy, List.countP_map, Function.comp_def,
    apply_ite, List.countP_cons] <;> simp [Change.isFailure]

/-! ## The counters of a row -/

/-- The attempts counted in the row, none while there is no row. -/
def attempts (r? : Option Job) : ℤ := r?.elim 0 Job.attemptCount

/-- One while the row is `PROCESSING`. -/
def busy (r? : Option Job) : ℕ :=
  if r?.any (·.status = .processing) then 1 else 0

def Change.tally (n : ℤ) (c : Change) : ℤ :=
  if c.isStart then 0 else if c.isClaim then n + 1 else n

theorem RowStep.attempts {r? s? : Option Job} {c : Change}
    (h : RowStep r? c s?) :
    JobQueue.attempts s? = c.tally (JobQueue.attempts r?) := by
  cases h with
  | create hnew =>
      obtain ⟨request, scheduledAt, key, now, createdAt, id, rfl⟩ :=
        hnew.eq_newJob
      rfl
  | @change r c hc =>
      cases c with
      | created row => exact hc.elim
      | _ => rfl

theorem RowStep.busy {r? s? : Option Job} {c : Change}
    (h : RowStep r? c s?) :
    JobQueue.busy s? + (c.isCompletion.toNat + c.isFailure.toNat) =
      JobQueue.busy r? + c.isClaim.toNat := by
  cases h with
  | create hnew =>
      obtain ⟨request, scheduledAt, key, now, createdAt, id, rfl⟩ :=
        hnew.eq_newJob
      by_cases hfuture : scheduledAt.any (now < ·) = true
      · simp [JobQueue.busy, newJob, hfuture, Change.isCompletion,
          Change.isFailure, Change.isClaim]
      · simp [JobQueue.busy, newJob, hfuture, Change.isCompletion,
          Change.isFailure, Change.isClaim]
  | @change r c hc =>
      cases c with
      | created row => exact hc.elim
      | claimed now workerId token deadline =>
          have hstatus := (Job.isClaimable_iff.mp hc).1
          simp [JobQueue.busy, Change.apply, claim, hstatus,
            Change.isCompletion, Change.isFailure, Change.isClaim]
      | completed now a result =>
          have hstatus := (ownedBy_iff.mp hc).2.1
          simp [JobQueue.busy, Change.apply, complete, releasedOwnership,
            hstatus, Change.isCompletion, Change.isFailure, Change.isClaim]
      | retryScheduled cause now a delay error =>
          have hstatus := (ownedBy_iff.mp hc.1).2.1
          simp [JobQueue.busy, Change.apply, scheduleRetry, releasedOwnership,
            hstatus, Change.isCompletion, Change.isFailure, Change.isClaim]
      | permanentlyFailed cause now a error =>
          have hstatus := (ownedBy_iff.mp hc.1).2.1
          simp [JobQueue.busy, Change.apply, failPermanently,
            releasedOwnership, hstatus, Change.isCompletion,
            Change.isFailure, Change.isClaim]
      | activated now =>
          have hstatus := (Job.isDue_iff.mp hc).1
          simp [JobQueue.busy, Change.apply, activate, hstatus,
            Change.isCompletion, Change.isFailure, Change.isClaim]
      | cancelled =>
          have hidle : r.status ≠ .processing := by
            rcases cancellable_iff.mp hc with hs | hs <;> simp [hs]
          simp [JobQueue.busy, Change.apply, cancel, releasedOwnership, hidle,
            Change.isCompletion, Change.isFailure, Change.isClaim]
      | retried =>
          have hstatus : r.status = .failed := hc
          simp [JobQueue.busy, Change.apply, restart, releasedOwnership,
            hstatus, Change.isCompletion, Change.isFailure, Change.isClaim]
      | keyReleased => rfl
      | leaseExtended now a deadline => rfl
      | progressed a progress => rfl

theorem RowPath.attempts {r? s? : Option Job} {cs : List Change}
    (h : RowPath r? cs s?) :
    JobQueue.attempts s? = cs.foldl Change.tally (JobQueue.attempts r?) := by
  induction h with
  | nil => rfl
  | snoc _ hstep ih => rw [hstep.attempts, ih, List.foldl_concat]

/-- Every claim makes the row busy once, every ending frees it once. -/
theorem RowPath.busy {r? s? : Option Job} {cs : List Change}
    (h : RowPath r? cs s?) :
    JobQueue.busy s? + (cs.countP Change.isCompletion +
        cs.countP Change.isFailure) =
      JobQueue.busy r? + cs.countP Change.isClaim := by
  induction h with
  | nil => simp
  | @snoc cs b c l _ hstep ih =>
      have hbusy := hstep.busy
      have hone : ∀ q : Change → Bool,
          (cs ++ [l]).countP q = cs.countP q + (q l).toNat := by
        intro q
        cases hq : q l <;> simp [List.countP_append, hq]
      rw [hone, hone, hone]
      omega

/-! ## Calls and changes -/

theorem foldl_tally_of_not_start {cs : List Change}
    (h : ∀ c ∈ cs, c.isStart = false) (n : ℤ) :
    cs.foldl Change.tally n = n + cs.countP Change.isClaim := by
  induction cs generalizing n with
  | nil => simp
  | cons c cs ih =>
      have hc : c.isStart = false := h c (by simp)
      rw [List.foldl_cons, ih (fun c' hc' => h c' (by simp [hc']))]
      cases hclaim : c.isClaim with
      | true =>
          simp [Change.tally, hc, hclaim]
          omega
      | false => simp [Change.tally, hc, hclaim]

theorem Makes.startsCycle {settings : Settings} {call : Op × Outcome}
    {id : UUID} {c : Change} (h : Makes settings call id c)
    (hc : c.isStart = true) : JobQueue.startsCycle id call = true := by
  cases h with
  | created op s hcreated => simp [JobQueue.startsCycle, hcreated]
  | retried jobId row => simp [JobQueue.startsCycle]
  | attemptFailed now a error result => simp at hc
  | recovered now limit locked results x hx => simp at hc
  | _ => simp [Change.isStart] at hc

/-- The call that starts a cycle ends with the change that starts it. -/
theorem exists_start_of_startsCycle (settings : Settings)
    {call : Op × Outcome} {id : UUID} (h : startsCycle id call = true) :
    ∃ cs c, changesFor id (changesOf settings call) = cs ++ [c] ∧
      c.isStart = true := by
  unfold startsCycle at h
  split at h
  · next op s =>
      simp only [Bool.and_eq_true, decide_eq_true_eq] at h
      refine ⟨changesFor id (s.released.map fun k => (k, .keyReleased)),
        .created s.job, ?_, rfl⟩
      simp only [changesOf, h.1, if_true, changesFor_append, h.2,
        changesFor_cons, changesFor_nil]
  · next jobId row =>
      refine ⟨[], .retried, ?_, rfl⟩
      simp only [decide_eq_true_eq] at h
      simp [changesOf, h, changesFor_cons]
  · cases h

/-- How a call moves the attempt counter of a row. -/
theorem tally_call (settings : Settings) (id : UUID) (call : Op × Outcome)
    (n : ℤ) :
    (changesFor id (changesOf settings call)).foldl Change.tally n =
      if startsCycle id call then 0 else n + claimsBy id call := by
  by_cases hstart : startsCycle id call = true
  · obtain ⟨cs, c, hcs, hc⟩ :=
      exists_start_of_startsCycle settings hstart
    simp [hcs, hstart, Change.tally, hc]
  · have hnone : ∀ c ∈ changesFor id (changesOf settings call),
        c.isStart = false := by
      intro c hc
      by_contra hne
      exact hstart ((makes_of_mem (mem_changesFor.mp hc)).startsCycle
        (by simpa using hne))
    rw [foldl_tally_of_not_start hnone, ← claimsBy_eq]
    simp [hstart]

/-! ## Runs -/

theorem claims_concat (id : UUID) (calls : List (Op × Outcome))
    (call : Op × Outcome) :
    claims id (calls ++ [call]) = claims id calls + claimsBy id call := by
  simp [claims]

theorem endings_concat (id : UUID) (calls : List (Op × Outcome))
    (call : Op × Outcome) :
    endings id (calls ++ [call]) =
      endings id calls + (completionsBy id call + failuresBy id call) := by
  simp [endings]

theorem claims_currentCycle_concat (id : UUID)
    (calls : List (Op × Outcome)) (call : Op × Outcome) :
    claims id (currentCycle id (calls ++ [call])) =
      if startsCycle id call then 0
      else claims id (currentCycle id calls) + claimsBy id call := by
  by_cases hstart : startsCycle id call = true
  · simp [currentCycle, hstart, claims]
  · simp [currentCycle, hstart, claims]

/-- What the row under `id` says about the calls answered so far. -/
structure Accounted (id : UUID) (calls : List (Op × Outcome))
    (r? : Option Job) : Prop where
  count : attempts r? = claims id (currentCycle id calls)
  balance : claims id calls = endings id calls + busy r?

theorem Accounted.step {id : UUID} {calls : List (Op × Outcome)} {t : Jobs}
    (settings : Settings) (h : Accounted id calls (t.find? id)) (op : Op) :
    Accounted id (calls ++ [(op, ((service settings).step t op).2)])
      (((service settings).step t op).1.find? id) := by
  have hpath := service_step_path settings t op id
  constructor
  · rw [RowPath.attempts hpath, tally_call, claims_currentCycle_concat,
      h.count]
    split <;> simp
  · have hbusy := RowPath.busy hpath
    rw [← claimsBy_eq, ← completionsBy_eq, ← failuresBy_eq] at hbusy
    rw [claims_concat, endings_concat, h.balance]
    omega

theorem accounted_after (settings : Settings) (ops : List Op) (id : UUID) :
    Accounted id (callsOf settings ops)
      ((tableAfter settings ops).find? id) :=
  (service settings).trace_invariant
    (P := fun calls t => Accounted id calls (t.find? id))
    ⟨rfl, rfl⟩ (fun _ _ op h => h.step settings op) ops

/-! ## Permanent failure -/

theorem RowStep.failed_before {r? : Option Job} {s : Job} {c : Change}
    (h : RowStep r? c (some s)) (hs : s.status = .failed)
    (hc : c.isFailure = false) : ∃ r, r? = some r ∧ r.status = .failed := by
  cases h with
  | create hnew =>
      obtain ⟨request, scheduledAt, key, now, createdAt, id, rfl⟩ :=
        hnew.eq_newJob
      by_cases hfuture : scheduledAt.any (now < ·) = true
      · simp [newJob, hfuture] at hs
      · simp [newJob, hfuture] at hs
  | @change r c henabled =>
      refine ⟨r, rfl, ?_⟩
      cases c with
      | keyReleased => exact hs
      | leaseExtended now a deadline => exact hs
      | progressed a progress => exact hs
      | retryScheduled cause now a delay error =>
          simp [Change.isFailure] at hc
      | permanentlyFailed cause now a error => simp [Change.isFailure] at hc
      | retried => exact henabled
      | created row => exact henabled.elim
      | _ => cases hs

/-- A row becomes `FAILED` only through the failure of an attempt. -/
theorem RowPath.exists_failure {r? : Option Job} {s : Job}
    {cs : List Change} (h : RowPath r? cs (some s)) (hs : s.status = .failed)
    (hr : ∀ r, r? = some r → r.status ≠ .failed) :
    ∃ c ∈ cs, c.isFailure = true := by
  by_contra hnone
  simp only [not_exists, not_and, Bool.not_eq_true] at hnone
  have hback : ∃ r, r? = some r ∧ r.status = .failed := by
    generalize hs' : some s = s? at h
    induction h generalizing s with
    | nil => exact ⟨s, hs'.symm, hs⟩
    | @snoc cs b? c? c hpath hstep ih =>
        subst hs'
        obtain ⟨b, rfl, hb⟩ := hstep.failed_before hs (hnone c (by simp))
        exact ih hb (fun c' hc' => hnone c' (by simp [hc'])) rfl
  obtain ⟨r, hsome, hfailed⟩ := hback
  exact hr r hsome hfailed

/-- A call that fails an attempt of the job changes it in no other way. -/
theorem isFailure_of_failuresBy_pos (settings : Settings)
    {call : Op × Outcome} {id : UUID} (h : 0 < failuresBy id call) :
    ∀ c ∈ changesFor id (changesOf settings call), c.isFailure = true := by
  intro c hc
  have hmakes := makes_of_mem (mem_changesFor.mp hc)
  cases hmakes with
  | attemptFailed now a error result => simp
  | recovered now limit locked results x hx => simp
  | _ => simp [failuresBy] at h

/-- The one change such a call makes to the job. -/
theorem failure_of_failuresBy_pos {settings : Settings} {t : Jobs} {op : Op}
    {id : UUID}
    (h : 0 < failuresBy id (op, ((service settings).step t op).2)) :
    ∃ (r : Job) (c : Change),
      changesFor id (changesOf settings
        (op, ((service settings).step t op).2)) = [c] ∧
      t.find? id = some r ∧ c.Enabled r ∧ c.isFailure = true ∧
      ((service settings).step t op).1.find? id = some (c.apply r) := by
  have hpath := service_step_path settings t op id
  have hall := isFailure_of_failuresBy_pos settings h
  rw [failuresBy_eq settings] at h
  generalize changesFor id
    (changesOf settings (op, ((service settings).step t op).2)) = cs at *
  have hbusy := RowPath.busy hpath
  have hle : busy (t.find? id) ≤ 1 := by
    unfold busy
    split <;> omega
  have hclaims : cs.countP Change.isClaim = 0 := by
    apply List.countP_eq_zero.mpr
    intro c hc hclaim
    have hfail := hall c hc
    cases c <;> simp [Change.isClaim, Change.isFailure] at hclaim hfail
  have hlength : cs.countP Change.isFailure = cs.length :=
    List.countP_eq_length.mpr hall
  obtain ⟨c, rfl⟩ : ∃ c, cs = [c] := by
    apply List.length_eq_one_iff.mp
    omega
  obtain ⟨s?, hstep, hnil⟩ := hpath.cons_inv
  rw [← hnil.eq_of_nil]
  have hc := hall c (by simp)
  cases hr : t.find? id with
  | none =>
      rw [hr] at hstep
      cases hstep
      simp [Change.isFailure] at hc
  | some r =>
      rw [hr] at hstep
      cases hstep with
      | change henabled => exact ⟨r, c, rfl, rfl, henabled, hc, rfl⟩

/-- Failing an attempt fails the job exactly when no attempts are left. -/
theorem Change.failed_iff_of_isFailure {r : Job} {c : Change}
    (hc : c.Enabled r) (hwf : r.Wellformed) (hfail : c.isFailure = true) :
    (c.apply r).status = .failed ↔ r.attemptCount = 3 := by
  have hmax := hwf.counters.maxAttempts
  have hle := hwf.counters.attempt_le
  cases c with
  | retryScheduled cause now a delay error =>
      have hlt := hc.2.1
      simp only [Change.apply, scheduleRetry, releasedOwnership]
      constructor
      · intro h
        cases h
      · intro h
        omega
  | permanentlyFailed cause now a error =>
      have hge := hc.2.1
      simp only [Change.apply, failPermanently, releasedOwnership, true_iff]
      omega
  | _ => simp [Change.isFailure] at hfail

theorem Change.processing_of_isFailure {r : Job} {c : Change}
    (hc : c.Enabled r) (hfail : c.isFailure = true) :
    r.status = .processing := by
  cases c with
  | retryScheduled cause now a delay error => exact (ownedBy_iff.mp hc.1).2.1
  | permanentlyFailed cause now a error => exact (ownedBy_iff.mp hc.1).2.1
  | _ => simp [Change.isFailure] at hfail

/-- The job is not `FAILED` in `t` and is `FAILED` in `t'`. -/
def BecomesFailed (id : UUID) (t t' : Jobs) : Prop :=
  (∀ r, t.find? id = some r → r.status ≠ .failed) ∧
    ∃ r', t'.find? id = some r' ∧ r'.status = .failed

theorem becomesFailed_iff (settings : Settings) (ops : List Op) (op : Op)
    (id : UUID) :
    BecomesFailed id (tableAfter settings ops)
        ((service settings).step (tableAfter settings ops) op).1 ↔
      claims id (currentCycle id (callsOf settings ops)) = 3 ∧
        0 < failuresBy id
          (op, ((service settings).step (tableAfter settings ops) op).2) := by
  have hwf := tableAfter_wellformed settings ops
  have hcount := (accounted_after settings ops id).count
  constructor
  · rintro ⟨hbefore, s, hs, hfailed⟩
    have hpath := service_step_path settings (tableAfter settings ops) op id
    rw [hs] at hpath
    have hpos : 0 < failuresBy id
        (op, ((service settings).step (tableAfter settings ops) op).2) := by
      rw [failuresBy_eq settings]
      exact List.countP_pos_iff.mpr
        (RowPath.exists_failure hpath hfailed hbefore)
    refine ⟨?_, hpos⟩
    obtain ⟨r, c, -, hr, henabled, hfail, hr'⟩ :=
      failure_of_failuresBy_pos hpos
    obtain rfl := Option.some.inj (hs.symm.trans hr')
    have hthree := (Change.failed_iff_of_isFailure henabled (hwf id r hr)
      hfail).mp hfailed
    rw [hr] at hcount
    have hrow : (r.attemptCount : ℤ) =
        claims id (currentCycle id (callsOf settings ops)) := hcount
    omega
  · rintro ⟨hthree, hpos⟩
    obtain ⟨r, c, -, hr, henabled, hfail, hr'⟩ :=
      failure_of_failuresBy_pos hpos
    rw [hr] at hcount
    have hrow : (r.attemptCount : ℤ) =
        claims id (currentCycle id (callsOf settings ops)) := hcount
    refine ⟨?_, c.apply r, hr', ?_⟩
    · intro r' hsome
      obtain rfl := Option.some.inj (hr.symm.trans hsome)
      simp [Change.processing_of_isFailure henabled hfail]
    · apply (Change.failed_iff_of_isFailure henabled (hwf id r hr) hfail).mpr
      omega

theorem claims_currentCycle_le (settings : Settings) (ops : List Op)
    (id : UUID) :
    claims id (currentCycle id (callsOf settings ops)) ≤ 3 := by
  have hcount := (accounted_after settings ops id).count
  cases hr : (tableAfter settings ops).find? id with
  | none =>
      rw [hr] at hcount
      have hzero : (0 : ℤ) =
          claims id (currentCycle id (callsOf settings ops)) := hcount
      omega
  | some r =>
      rw [hr] at hcount
      have hrow : (r.attemptCount : ℤ) =
          claims id (currentCycle id (callsOf settings ops)) := hcount
      have hcounters := (tableAfter_wellformed settings ops id r hr).counters
      have hmax := hcounters.maxAttempts
      have hle := hcounters.attempt_le
      omega

/-- After a claim and until the next one, the claims of the job are ended at
most once. -/
theorem endings_le_one (settings : Settings) (ops after : List Op)
    (id : UUID)
    (hidle : claims id
      ((service settings).trace (tableAfter settings ops) after) = 0) :
    endings id
      ((service settings).trace (tableAfter settings ops) after) ≤ 1 := by
  have hbefore := (accounted_after settings ops id).balance
  have hafter := (accounted_after settings (ops ++ after) id).balance
  have hcalls : callsOf settings (ops ++ after) = callsOf settings ops ++
      (service settings).trace (tableAfter settings ops) after :=
    (service settings).trace_append _ ops after
  have hle : busy ((tableAfter settings ops).find? id) ≤ 1 := by
    unfold busy
    split <;> omega
  rw [hcalls] at hafter
  simp only [claims, endings, List.map_append, List.sum_append] at *
  omega

/-- Attempt accounting, for every run from the empty table and every job.  The
counter of the row is the number of claims since the job was created or last
retried; claims and endings differ by one exactly while the job is
`PROCESSING`; after a claim, and until the next one, the job sees at most one
ending; a cycle has at most three claims; and the job becomes `FAILED` exactly
when the third claim of the cycle ends by failure or recovery. -/
theorem attempt_accounting (settings : Settings) (ops : List Op)
    (id : UUID) :
    (∀ r, (tableAfter settings ops).find? id = some r →
      r.attemptCount = claims id (currentCycle id (callsOf settings ops)) ∧
      claims id (callsOf settings ops) =
        endings id (callsOf settings ops) +
          if r.status = .processing then 1 else 0) ∧
    (∀ before op after, ops = before ++ op :: after →
      claimsBy id
        (op, ((service settings).step (tableAfter settings before) op).2) =
          1 →
      claims id ((service settings).trace
        (tableAfter settings (before ++ [op])) after) = 0 →
      endings id ((service settings).trace
        (tableAfter settings (before ++ [op])) after) ≤ 1) ∧
    claims id (currentCycle id (callsOf settings ops)) ≤ 3 ∧
    ∀ op, BecomesFailed id (tableAfter settings ops)
        ((service settings).step (tableAfter settings ops) op).1 ↔
      claims id (currentCycle id (callsOf settings ops)) = 3 ∧
        0 < failuresBy id
          (op, ((service settings).step (tableAfter settings ops) op).2) := by
  refine ⟨?_, ?_, claims_currentCycle_le settings ops id,
    fun op => becomesFailed_iff settings ops op id⟩
  · intro r hr
    have h := accounted_after settings ops id
    rw [hr] at h
    refine ⟨h.count, ?_⟩
    simpa [busy] using h.balance
  · rintro before op after rfl - hidle
    exact endings_le_one settings (before ++ [op]) after id hidle

end JobQueue
