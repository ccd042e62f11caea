import JobQueue.Lifecycle.Transitions

/-!
# The migration that adds the execution token

Revision 0002 adds `execution_token` to a table that satisfies revision 0001
and releases every `PROCESSING` row, whose owner can no longer be told apart
from a stale one, as due at once.  A released row keeps its `attempt_count`.
If that already equals `max_attempts`, no claim accepts the row once it is
activated: it stays `PENDING` until it is cancelled.
-/

namespace JobQueue

open Support

/-! ## The two revisions -/

/-- One row of `jobs` under revision 0001. -/
structure LegacyJob where
  id : UUID
  type : String
  payload : Jsonb
  status : JobStatus
  priority : ℤ
  attemptCount : ℤ
  maxAttempts : ℤ
  progress : ℤ
  result : Option Jsonb
  error : Option String
  scheduledAt : Option Time
  createdAt : Time
  startedAt : Option Time
  completedAt : Option Time
  workerId : Option String
  leaseExpiresAt : Option Time
  idempotencyKey : Option String
  idempotencyExpiresAt : Option Time
deriving DecidableEq

abbrev LegacyJobs := KeyedTable LegacyJob.id

def LegacyJob.isLegal (j : LegacyJob) : Bool :=
  0 ≤ j.attemptCount && 1 ≤ j.maxAttempts &&
    j.attemptCount ≤ j.maxAttempts && (0 ≤ j.progress && j.progress ≤ 100)

/-- `ADD COLUMN execution_token UUID NULL`, on one row. -/
def LegacyJob.addToken (j : LegacyJob) : Job where
  id := j.id
  type := j.type
  payload := j.payload
  status := j.status
  priority := j.priority
  attemptCount := j.attemptCount
  maxAttempts := j.maxAttempts
  progress := j.progress
  result := j.result
  error := j.error
  scheduledAt := j.scheduledAt
  createdAt := j.createdAt
  startedAt := j.startedAt
  completedAt := j.completedAt
  workerId := j.workerId
  executionToken := none
  leaseExpiresAt := j.leaseExpiresAt
  idempotencyKey := j.idempotencyKey
  idempotencyExpiresAt := j.idempotencyExpiresAt

def addColumn (t : LegacyJobs) : Jobs :=
  t.map LegacyJob.addToken fun _ => rfl

/-- A row the data step matches. -/
def Job.isPreToken (r : Job) : Bool :=
  r.status = .processing && r.executionToken.isNone

def releasePreToken (now : Time) : Assignment Job.id where
  set r :=
    { r with
      status := .scheduled
      scheduledAt := some now
      workerId := none
      executionToken := none
      leaseExpiresAt := none }
  key_set _ := rfl

/-- `upgrade()` of revision 0002, at the time of its transaction. -/
def upgrade (now : Time) (t : LegacyJobs) : Except ServiceError Jobs := do
  let (t', _) ← executeUpdate (addColumn t) Job.isPreToken (releasePreToken now)
  return t'

/-! ## What the upgrade does -/

theorem LegacyJob.violatedCheck_addToken {j : LegacyJob}
    (h : j.isLegal = true) : j.addToken.violatedCheck = none := by
  rw [Job.violatedCheck_eq_none_iff]
  simp only [LegacyJob.isLegal, Bool.and_eq_true, decide_eq_true_eq] at h
  exact ⟨h.1.1.1, h.1.1.2, h.1.2, h.2.1, h.2.2⟩

def LegacyJob.upgraded (now : Time) (j : LegacyJob) : Job :=
  if j.status = .processing then (releasePreToken now).set j.addToken
  else j.addToken

theorem LegacyJob.violatedCheck_upgraded (now : Time) {j : LegacyJob}
    (h : j.isLegal = true) : (j.upgraded now).violatedCheck = none := by
  unfold LegacyJob.upgraded
  split
  · exact (Job.violatedCheck_eq_none_iff _).mpr
      ((Job.violatedCheck_eq_none_iff _).mp (violatedCheck_addToken h))
  · exact violatedCheck_addToken h

/-- The upgrade of a legal table goes through and rewrites it row by row. -/
theorem upgrade_eq (now : Time) {old : LegacyJobs}
    (hlegal : ∀ j ∈ old.rows, j.isLegal = true) :
    ∃ new, upgrade now old = .ok new ∧
      new.rows = old.rows.map (LegacyJob.upgraded now) := by
  have hchecked : ∀ r ∈ (addColumn old).rows, r.isPreToken = true →
      ((releasePreToken now).set r).violatedCheck = none := by
    intro r hr _
    obtain ⟨j, hj, rfl⟩ := List.mem_map.mp hr
    exact (Job.violatedCheck_eq_none_iff _).mpr
      ((Job.violatedCheck_eq_none_iff _).mp
        (LegacyJob.violatedCheck_addToken (hlegal j hj)))
  refine ⟨(addColumn old).updateWhere Job.isPreToken (releasePreToken now),
    ?_, ?_⟩
  · rw [upgrade, executeUpdate_checked hchecked]
    rfl
  · simp only [KeyedTable.updateWhere, addColumn, KeyedTable.map,
      List.map_map]
    apply List.map_congr_left
    intro j _
    simp [LegacyJob.upgraded, Job.isPreToken, LegacyJob.addToken]

theorem find?_upgraded {now : Time} {old : LegacyJobs} {new : Jobs}
    (hnew : new.rows = old.rows.map (LegacyJob.upgraded now)) {j : LegacyJob}
    (hj : j ∈ old.rows) : new.find? j.id = some (j.upgraded now) := by
  rw [KeyedTable.find?_eq_some_iff, hnew]
  refine ⟨List.mem_map_of_mem hj, ?_⟩
  unfold LegacyJob.upgraded
  split
  · rfl
  · rfl

/-! ## Released rows -/

/-- The job can be claimed by anyone, and the attempt that claims it can
complete it. -/
def CanFinish (settings : Settings) (t : Jobs) (jobId : UUID) : Prop :=
  ∀ now workerId token leaseSeconds, ∃ t' row a,
    claimJob settings t now jobId workerId token leaseSeconds =
        .ok (t', some row) ∧
      Attempt.of row = .ok a ∧
      ∀ end_ result, ∃ t'' done, completeJob t' end_ a result =
        .ok (t'', done) ∧
        t''.find? jobId = some done ∧ done.status = .completed

/-- What the upgrade is for.  A released row is waited for until some sweep
activates it; it can then be claimed and finished. -/
structure StrandsNoJob (settings : Settings) (now : Time) (old : LegacyJobs)
    (new : Jobs) : Prop where
  ids : new.rows.map Job.id = old.rows.map LegacyJob.id
  untouched : ∀ j ∈ old.rows, j.status ≠ .processing →
    new.find? j.id = some j.addToken
  drained : ∀ r ∈ new.rows, r.status ≠ .processing
  released : ∀ j ∈ old.rows, j.status = .processing →
    ∃ r, new.find? j.id = some r ∧ r.status = .scheduled ∧
      (∀ later, now ≤ later → r.isDue later = true) ∧
      r.workerId = none ∧ r.executionToken = none ∧
      r.leaseExpiresAt = none ∧ r.attemptCount = j.attemptCount
  finishes : ∀ j ∈ old.rows, j.status = .processing →
    ∀ ops later limit locked t rows r,
      ((service settings).run new ops).find? j.id = new.find? j.id →
      activateDueScheduledJobs ((service settings).run new ops) later limit
        locked = .ok (t, rows) →
      t.find? j.id = some r → r.status = .pending →
      r.isClaimable = true ∧ CanFinish settings t j.id

/-- A row that is claimable and passes the checks can be claimed and
completed. -/
theorem canFinish_of_claimable {settings : Settings} {t : Jobs}
    {jobId : UUID} {r : Job} (hr : t.find? jobId = some r)
    (hclaimable : r.isClaimable = true) (hcheck : r.violatedCheck = none) :
    CanFinish settings t jobId := by
  intro now workerId token leaseSeconds
  have hid : r.id = jobId := KeyedTable.key_of_find?_eq_some hr
  have hbounds := (Job.violatedCheck_eq_none_iff _).mp hcheck
  have hlt := (Job.isClaimable_iff.mp hclaimable).2
  obtain ⟨t', row, hset, hclaim, hrw⟩ := claimJob_of_claimable hr hclaimable
    hcheck settings now workerId token leaseSeconds
  obtain ⟨a, hattempt⟩ : ∃ a, Attempt.of row = .ok a := by
    rw [hset]
    exact ⟨_, rfl⟩
  refine ⟨t', row, a, hclaim, hattempt, ?_⟩
  intro end_ result
  obtain ⟨haid, hworker, htoken, -⟩ := Attempt.of_eq_ok_iff.mp hattempt
  have howned : ownedBy a row = true :=
    ownedBy_iff.mpr ⟨haid, by rw [hset]; rfl, hworker, htoken⟩
  have hrowid : row.id = jobId := by
    rw [hset]
    exact hid
  have hafter : t'.find? a.jobId = some row := by
    rw [← haid, hrowid]
    exact hrw.after
  have hcompletes := executeFirst_matched (complete end_ result)
    (fun s hs => ownedBy_id hs) hafter howned (by
      rw [Job.violatedCheck_eq_none_iff, hset]
      simp only [complete, releasedOwnership, claim]
      omega)
  refine ⟨_, _, by rw [completeJob, hcompletes]; rfl, ?_, rfl⟩
  rw [← hrowid, haid]
  exact (updateWhere_rewrites _ (fun s hs => ownedBy_id hs) hafter
    howned).after

theorem find?_activateDue {t t' : Jobs} {now : Time} {limit : ℕ}
    {locked : List UUID} {rows : List Job} {id : UUID} {r s : Job}
    (h : activateDueScheduledJobs t now limit locked = .ok (t', rows))
    (hr : t.find? id = some r) (hs : t'.find? id = some s) :
    s = activate.set r ∨ s = r := by
  obtain ⟨rfl, -⟩ := executeUpdate_eq_ok h
  rw [KeyedTable.find?_updateWhere, hr, Option.map_some] at hs
  rw [← Option.some.inj hs]
  split
  · exact Or.inl rfl
  · exact Or.inr rfl

theorem activateDue_unlimited {t : Jobs} {now : Time} {id : UUID} {r : Job}
    (hchecked : ∀ r ∈ t.rows, r.violatedCheck = none)
    (hr : t.find? id = some r) (hdue : r.isDue now = true) :
    ∃ t' rows, activateDueScheduledJobs t now t.rows.length [] =
        .ok (t', rows) ∧ t'.find? id = some (activate.set r) := by
  obtain ⟨hmem, hid⟩ := KeyedTable.find?_eq_some_iff.mp hr
  have hselected : id ∈ selectDue t now t.rows.length [] := by
    rw [← hid]
    refine List.mem_map_of_mem
      (KeyedTable.mem_selectOrdered_of_length_le le_rfl hmem ?_)
    simpa using hdue
  refine ⟨_, _, executeUpdate_checked ?_, ?_⟩
  · intro s hs _
    exact (Job.violatedCheck_eq_none_iff _).mpr
      ((Job.violatedCheck_eq_none_iff _).mp (hchecked s hs))
  · rw [KeyedTable.find?_updateWhere, hr]
    simp [hid, hselected, hdue]

section Upgrade

variable {now : Time} {old : LegacyJobs} {new : Jobs}
  (hlegal : ∀ j ∈ old.rows, j.isLegal = true)
  (hnew : new.rows = old.rows.map (LegacyJob.upgraded now))

include hlegal hnew

theorem upgraded_checked : ∀ r ∈ new.rows, r.violatedCheck = none := by
  intro r hr
  rw [hnew] at hr
  obtain ⟨j, hj, rfl⟩ := List.mem_map.mp hr
  exact LegacyJob.violatedCheck_upgraded now (hlegal j hj)

/-- With an attempt left on every released row, nothing is stranded. -/
theorem strandsNoJob (settings : Settings)
    (hleft : ∀ j ∈ old.rows, j.status = .processing →
      j.attemptCount < j.maxAttempts) :
    StrandsNoJob settings now old new := by
  constructor
  · rw [hnew, List.map_map]
    apply List.map_congr_left
    intro j _
    simp only [Function.comp_apply, LegacyJob.upgraded]
    split
    · rfl
    · rfl
  · intro j hj hstatus
    rw [find?_upgraded hnew hj, LegacyJob.upgraded, if_neg hstatus]
  · intro r hr hstatus
    rw [hnew] at hr
    obtain ⟨j, -, rfl⟩ := List.mem_map.mp hr
    unfold LegacyJob.upgraded at hstatus
    split at hstatus
    · cases hstatus
    · next hne => exact hne hstatus
  · intro j hj hstatus
    have hfind := find?_upgraded hnew hj
    rw [LegacyJob.upgraded, if_pos hstatus] at hfind
    refine ⟨_, hfind, rfl, ?_, rfl, rfl, rfl, rfl⟩
    intro later hlater
    simpa [Job.isDue, releasePreToken] using hlater
  · intro j hj hstatus ops later limit locked t rows r hsame hactivate hr
      hpending
    have hfind := find?_upgraded hnew hj
    have hcheck := LegacyJob.violatedCheck_upgraded now (hlegal j hj)
    rw [LegacyJob.upgraded, if_pos hstatus] at hfind hcheck
    rcases find?_activateDue hactivate (hsame.trans hfind) hr with rfl | rfl
    · have hclaimable : (activate.set
          ((releasePreToken now).set j.addToken)).isClaimable = true :=
        Job.isClaimable_iff.mpr ⟨rfl, hleft j hj hstatus⟩
      refine ⟨hclaimable, canFinish_of_claimable hr hclaimable ?_⟩
      exact (Job.violatedCheck_eq_none_iff _).mpr
        ((Job.violatedCheck_eq_none_iff _).mp hcheck)
    · cases hpending

/-- A released row that can be claimed again has an attempt left. -/
theorem StrandsNoJob.attempt_left {settings : Settings}
    (h : StrandsNoJob settings now old new) {j : LegacyJob}
    (hj : j ∈ old.rows) (hstatus : j.status = .processing) :
    j.attemptCount < j.maxAttempts := by
  have hfind := find?_upgraded hnew hj
  rw [LegacyJob.upgraded, if_pos hstatus] at hfind
  have hdue : ((releasePreToken now).set j.addToken).isDue now = true := by
    simp [Job.isDue, releasePreToken]
  obtain ⟨t, rows, hactivate, hr⟩ := activateDue_unlimited
    (upgraded_checked hlegal hnew) hfind hdue
  have hclaimable := (h.finishes j hj hstatus [] now _ [] t rows _ rfl
    hactivate hr rfl).1
  exact (Job.isClaimable_iff.mp hclaimable).2

end Upgrade

/-- On every table that is legal under revision 0001, the upgrade strands no
job exactly when every `PROCESSING` row has an attempt left. -/
theorem upgrade_strands_no_job_iff (settings : Settings) (now : Time)
    {old : LegacyJobs} (hlegal : ∀ j ∈ old.rows, j.isLegal = true) :
    (∃ new, upgrade now old = .ok new ∧
        StrandsNoJob settings now old new) ↔
      ∀ j ∈ old.rows, j.status = .processing →
        j.attemptCount < j.maxAttempts := by
  obtain ⟨new, hupgrade, hnew⟩ := upgrade_eq now hlegal
  constructor
  · rintro ⟨new', hupgrade', hstrands⟩ j hj hstatus
    rw [hupgrade] at hupgrade'
    cases hupgrade'
    exact hstrands.attempt_left hlegal hnew hj hstatus
  · intro hleft
    exact ⟨new, hupgrade, strandsNoJob hlegal hnew settings hleft⟩

/-- A legacy table with one row that a worker was processing. -/
def legacyProcessing (attemptCount : ℤ) : LegacyJobs where
  rows :=
    [{ id := 1, type := "email", payload := "\x7b\x7d", status := .processing
       priority := 0, attemptCount := attemptCount, maxAttempts := 3
       progress := 0, result := none, error := none, scheduledAt := none
       createdAt := 0, startedAt := none, completedAt := none
       workerId := some "worker-phase3", leaseExpiresAt := none
       idempotencyKey := none, idempotencyExpiresAt := none }]
  nodup := by simp

theorem upgrade_strands_no_job_first_attempt :
    ∃ new, upgrade 0 (legacyProcessing 1) = .ok new ∧
      StrandsNoJob sampleSettings 0 (legacyProcessing 1) new := by
  have hlegal : ∀ j ∈ (legacyProcessing 1).rows, j.isLegal = true := by decide
  exact (upgrade_strands_no_job_iff sampleSettings 0 hlegal).mpr (by decide)

/-! ## Stranded rows -/

/-- A `PENDING` row without attempts left, or what cancelling it makes of
it. -/
def Job.IsStranded (r : Job) : Prop :=
  r.status = .cancelled ∨
    r.status = .pending ∧ r.maxAttempts ≤ r.attemptCount

theorem Change.keeps_stranded {r : Job} {c : Change} (hc : c.Enabled r)
    (h : r.IsStranded) : (c.apply r).IsStranded := by
  cases c with
  | created row => exact hc.elim
  | keyReleased => exact h
  | leaseExtended now a deadline => exact h
  | progressed a progress => exact h
  | cancelled => exact Or.inl rfl
  | claimed now workerId token deadline =>
      obtain ⟨hstatus, hlt⟩ := Job.isClaimable_iff.mp hc
      rcases h with h | ⟨-, h⟩
      · rw [h] at hstatus
        cases hstatus
      · omega
  | _ =>
      have hleaves := Change.leaves_of_enabled hc rfl
      rcases h with h | ⟨h, -⟩ <;> rw [h] at hleaves <;> cases hleaves

/-- A stranded row stays stranded, whatever the service does. -/
theorem stranded_forever (settings : Settings) {t : Jobs} {id : UUID}
    {r : Job} (hr : t.find? id = some r) (hstranded : r.IsStranded)
    (ops : List Op) :
    ∃ s, ((service settings).run t ops).find? id = some s ∧
      s.IsStranded := by
  have hpath := service_path_from settings t ops id
  rw [hr] at hpath
  refine hpath.invariant (P := fun _ s? => ∃ s, s? = some s ∧ s.IsStranded)
    ⟨r, rfl, hstranded⟩ ?_
  rintro cs _ c _ ⟨s, rfl, hs⟩ hstep
  cases hstep with
  | change henabled => exact ⟨_, rfl, Change.keeps_stranded henabled hs⟩

/-- The upgrade releases a row in its third attempt; the scheduler activates
it, and no run of the service ever completes or fails it. -/
theorem upgrade_strands_third_attempt :
    (¬∃ new, upgrade 0 (legacyProcessing 3) = .ok new ∧
        StrandsNoJob sampleSettings 0 (legacyProcessing 3) new) ∧
      ∃ new t rows, upgrade 0 (legacyProcessing 3) = .ok new ∧
        activateDueScheduledJobs new 0 10 [] = .ok (t, rows) ∧
        rows.map Job.id = [1] ∧
        ∀ ops, ∃ s, ((service sampleSettings).run t ops).find? 1 = some s ∧
          s.IsStranded ∧ s.isClaimable = false := by
  have hlegal : ∀ j ∈ (legacyProcessing 3).rows, j.isLegal = true := by decide
  obtain ⟨new, hupgrade, hnew⟩ := upgrade_eq 0 hlegal
  refine ⟨?_, ?_⟩
  · rintro ⟨new', hupgrade', hstrands⟩
    rw [hupgrade] at hupgrade'
    cases hupgrade'
    have hleft := hstrands.attempt_left hlegal hnew
      (List.mem_singleton_self _) rfl
    revert hleft
    decide
  · obtain ⟨new, t, rows, hnew, hactivate, hrows, r, hr, hstranded⟩ :
        ∃ new t rows, upgrade 0 (legacyProcessing 3) = .ok new ∧
          activateDueScheduledJobs new 0 10 [] = .ok (t, rows) ∧
          rows.map Job.id = [1] ∧ ∃ r, t.find? 1 = some r ∧ r.IsStranded :=
      ⟨_, _, _, rfl, rfl, rfl, _, rfl, Or.inr ⟨rfl, by decide⟩⟩
    refine ⟨new, t, rows, hnew, hactivate, hrows, fun ops => ?_⟩
    obtain ⟨s, hs, hlater⟩ := stranded_forever sampleSettings hr hstranded ops
    refine ⟨s, hs, hlater, ?_⟩
    rcases hlater with hstatus | ⟨-, hexhausted⟩
    · simp [Job.isClaimable, hstatus]
    · simp [Job.isClaimable, hexhausted]

end JobQueue
