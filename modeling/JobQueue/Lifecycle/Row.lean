import JobQueue.Service.Statements
import JobQueue.Service.System

/-!
# The lifecycle of one row

The abstract model of the service: a single job and the changes it can
undergo.  `Change` names what happened to a row and with which data,
`Change.Enabled` is the condition under which it may happen, and
`Change.apply` the row that results.  Later modules show that every operation
moves every row along these changes and along no others.
-/

namespace JobQueue

open Support

/-- Who recorded a failed attempt. -/
inductive Cause
  | worker
  | recovery
deriving DecidableEq

/-- One change of one row. -/
inductive Change
  | created (row : Job)
  | keyReleased
  | claimed (now : Time) (workerId : String) (token : UUID) (deadline : Time)
  | leaseExtended (now : Time) (attempt : Attempt) (deadline : Time)
  | progressed (attempt : Attempt) (progress : ℤ)
  | completed (now : Time) (attempt : Attempt) (result : Jsonb)
  | retryScheduled (cause : Cause) (now : Time) (attempt : Attempt)
      (delay : ℤ) (error : String)
  | permanentlyFailed (cause : Cause) (now : Time) (attempt : Attempt)
      (error : String)
  | activated (now : Time)
  | cancelled
  | retried

/-- A recovery may only touch a row whose lease has run out. -/
def Cause.Allows (now : Time) (r : Job) : Cause → Prop
  | .worker => True
  | .recovery => r.leaseExpired now = true

/-- The condition under which a row may undergo a change. -/
def Change.Enabled (r : Job) : Change → Prop
  | .created _ => False
  | .keyReleased => True
  | .claimed _ _ _ _ => r.isClaimable = true
  | .leaseExtended _ a _ => ownedBy a r = true
  | .progressed a _ => ownedBy a r = true
  | .completed _ a _ => ownedBy a r = true
  | .retryScheduled cause now a delay _ =>
      ownedBy a r = true ∧ r.attemptCount < r.maxAttempts ∧
        retryDelaySeconds a.attemptCount = .ok delay ∧ cause.Allows now r
  | .permanentlyFailed cause now a _ =>
      ownedBy a r = true ∧ r.maxAttempts ≤ r.attemptCount ∧
        cause.Allows now r
  | .activated now => r.isDue now = true
  | .cancelled => cancellable r.status = true
  | .retried => r.status = .failed

/-- The row a change leaves behind. -/
def Change.apply (r : Job) : Change → Job
  | .created row => row
  | .keyReleased => releaseKey.set r
  | .claimed now workerId token deadline =>
      (claim now workerId token deadline).set r
  | .leaseExtended _ _ deadline => (setLease deadline).set r
  | .progressed _ progress => (setProgress progress).set r
  | .completed now _ result => (complete now result).set r
  | .retryScheduled _ now _ delay error =>
      (scheduleRetry now delay error).set r
  | .permanentlyFailed _ now _ error => (failPermanently now error).set r
  | .activated _ => activate.set r
  | .cancelled => cancel.set r
  | .retried => restart.set r

/-- A row as `_build_job` makes it. -/
def Job.IsNew (row : Job) : Prop :=
  ∃ request key now createdAt id,
    buildJob request key now createdAt id = .ok row

theorem Job.IsNew.eq_newJob {row : Job} (h : row.IsNew) :
    ∃ request scheduledAt key now createdAt id,
      row = newJob request scheduledAt key now createdAt id := by
  obtain ⟨request, key, now, createdAt, id, hbuild⟩ := h
  exact ⟨request, request.scheduledAt, key, now, createdAt, id,
    buildJob_eq_ok hbuild⟩

/-- One change of the row stored under some id, which may not exist yet. -/
inductive RowStep : Option Job → Change → Option Job → Prop
  | create {row : Job} : row.IsNew → RowStep none (.created row) (some row)
  | change {r : Job} {c : Change} :
      c.Enabled r → RowStep (some r) c (some (c.apply r))

/-- The history of one row, from its creation on. -/
abbrev RowPath := Trail RowStep

theorem RowStep.some_of_right {r? : Option Job} {c : Change} {s : Option Job}
    (h : RowStep r? c s) : ∃ s', s = some s' := by
  cases h with
  | create _ => exact ⟨_, rfl⟩
  | change _ => exact ⟨_, rfl⟩

theorem ownedBy_iff {a : Attempt} {r : Job} :
    ownedBy a r = true ↔
      r.id = a.jobId ∧ r.status = .processing ∧
        r.workerId = some a.workerId ∧
        r.executionToken = some a.executionToken := by
  simp [ownedBy, and_assoc]

theorem Job.isClaimable_iff {r : Job} :
    r.isClaimable = true ↔
      r.status = .pending ∧ r.attemptCount < r.maxAttempts := by
  simp [Job.isClaimable]

theorem Job.isDue_iff {now : Time} {r : Job} :
    r.isDue now = true ↔
      r.status = .scheduled ∧ ∃ at_, r.scheduledAt = some at_ ∧ at_ ≤ now := by
  simp [Job.isDue, Option.any_eq_true]

theorem Job.leaseExpired_iff {now : Time} {r : Job} :
    r.leaseExpired now = true ↔
      ∃ deadline, r.leaseExpiresAt = some deadline ∧ deadline < now := by
  simp [Job.leaseExpired, Option.any_eq_true]

theorem cancellable_iff {s : JobStatus} :
    cancellable s = true ↔ s = .pending ∨ s = .scheduled := by
  simp [cancellable]

/-! ## Claims and their endings -/

def Change.claimedToken : Change → Option UUID
  | .claimed _ _ token _ => some token
  | _ => none

def Change.endedAttempt : Change → Option Attempt
  | .completed _ a _ => some a
  | .retryScheduled _ _ a _ _ => some a
  | .permanentlyFailed _ _ a _ => some a
  | _ => none

/-- The change ends the claim that minted `token`. -/
def Change.Ends (token : UUID) (c : Change) : Prop :=
  ∃ a, c.endedAttempt = some a ∧ a.executionToken = token

end JobQueue
