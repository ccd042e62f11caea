import JobQueue.Lifecycle.Refinement
import JobQueue.Support.Ledger

/-!
# The flow of jobs

A job waits, for its time or for a worker, it is processed, or it has come to
one of three ends.  The answer to a call tells which jobs it moved from one of
these stages to another.  Whatever has entered a stage and not left it is
there, so the answers of a run determine how many jobs every stage holds.
-/

namespace JobQueue

open Support

/-- Where a job stands; the two statuses of a waiting job count as one. -/
inductive Stage
  | waiting
  | processing
  | completed
  | failed
  | cancelled
deriving DecidableEq

def JobStatus.stage : JobStatus → Stage
  | .scheduled => .waiting
  | .pending => .waiting
  | .processing => .processing
  | .completed => .completed
  | .failed => .failed
  | .cancelled => .cancelled

/-- The stage a job leaves, none for a new job, and the stage it enters. -/
abbrev Move := Option Stage × Stage

def AttemptOutcome.stage : AttemptOutcome → Stage
  | .retryScheduled => .waiting
  | .permanentlyFailed => .failed

/-- The moves an answered call makes, one for every job it moves. -/
def movesOf : Op × Outcome → List Move
  | (_, .ok (.submitted s)) => if s.created then [(none, .waiting)] else []
  | (.claimJob _ _ _ _ _, .ok (.claimed (some _))) =>
      [(some .waiting, .processing)]
  | (.completeJob _ _ _, .ok (.completed _)) =>
      [(some .processing, .completed)]
  | (.failAttempt _ _ _, .ok (.attemptFailed result)) =>
      [(some .processing, result.outcome.stage)]
  | (.recoverExpiredLeases _ _ _, .ok (.recovered results)) =>
      results.map fun x => (some .processing, x.2.outcome.stage)
  | (.cancelJob _, .ok (.cancelled c)) =>
      if c.changed then [(some .waiting, .cancelled)] else []
  | (.retryJob _, .ok (.retried _)) => [(some .failed, .waiting)]
  | _ => []

def entriesInto (x : Stage) (moves : List Move) : ℕ :=
  moves.countP fun m => m.2 = x

def exitsFrom (x : Stage) (moves : List Move) : ℕ :=
  moves.countP fun m => m.1 = some x

def creations (moves : List Move) : ℕ := moves.countP fun m => m.1 = none

/-- Every move enters some stage, and leaves one unless it creates a job. -/
theorem sum_entered (moves : List Move) :
    entriesInto .waiting moves + entriesInto .processing moves +
        entriesInto .completed moves + entriesInto .failed moves +
        entriesInto .cancelled moves =
      exitsFrom .waiting moves + exitsFrom .processing moves +
        exitsFrom .completed moves + exitsFrom .failed moves +
        exitsFrom .cancelled moves + creations moves := by
  induction moves with
  | nil => rfl
  | cons m moves ih =>
      obtain ⟨x, y⟩ := m
      have hy : ∀ z, entriesInto z ((x, y) :: moves) =
          entriesInto z moves + if y = z then 1 else 0 := by
        intro z
        simp [entriesInto, List.countP_cons]
      have hx : ∀ z, exitsFrom z ((x, y) :: moves) =
          exitsFrom z moves + if x = some z then 1 else 0 := by
        intro z
        simp [exitsFrom, List.countP_cons]
      have hnone : creations ((x, y) :: moves) =
          creations moves + if x = none then 1 else 0 := by
        simp [creations, List.countP_cons]
      simp only [hx, hy, hnone]
      rcases x with _ | x
      · cases y <;> simp <;> omega
      · cases x <;> cases y <;> simp <;> omega

/-- Nothing leaves the stages of completed and of cancelled jobs. -/
theorem left_movesOf {call : Op × Outcome} {m : Move} (h : m ∈ movesOf call) :
    m.1 ≠ some .completed ∧ m.1 ≠ some .cancelled := by
  unfold movesOf at h
  split at h
  case h_1 => split at h <;> simp_all
  case h_5 =>
    obtain ⟨x, -, rfl⟩ := List.mem_map.mp h
    exact ⟨by simp, by simp⟩
  case h_6 => split at h <;> simp_all
  all_goals simp_all

/-! ## Moves of one row -/

def Change.move : Change → Option Move
  | .created _ => some (none, .waiting)
  | .claimed _ _ _ _ => some (some .waiting, .processing)
  | .completed _ _ _ => some (some .processing, .completed)
  | .retryScheduled _ _ _ _ _ => some (some .processing, .waiting)
  | .permanentlyFailed _ _ _ _ => some (some .processing, .failed)
  | .cancelled => some (some .waiting, .cancelled)
  | .retried => some (some .failed, .waiting)
  | _ => none

@[simp] theorem failureChange_move (cause : Cause) (now : Time) (a : Attempt)
    (error : String) (outcome : AttemptOutcome) :
    (failureChange cause now a error outcome).move =
      some (some .processing, outcome.stage) := by
  cases outcome with
  | retryScheduled => rfl
  | permanentlyFailed => rfl

theorem movesOf_eq (settings : Settings) (call : Op × Outcome) :
    movesOf call =
      (changesOf settings call).filterMap fun x => x.2.move := by
  unfold changesOf
  split
  case h_1 op s =>
    cases hs : s.created with
    | false => simp [movesOf, hs]
    | true => simp [movesOf, hs, Change.move, List.filterMap_map]
  case h_11 jobId c =>
    cases hc : c.changed with
    | false => simp [movesOf, hc]
    | true => simp [movesOf, hc, Change.move]
  all_goals simp [movesOf, List.filterMap_map] <;> simp [Change.move]

def stageOf (r? : Option Job) : Option Stage := r?.map fun r => r.status.stage

/-- A change that moves the row takes it from the one stage to the other; any
other change leaves it in its stage. -/
theorem RowStep.move {r? s? : Option Job} {c : Change} (h : RowStep r? c s?) :
    match c.move with
    | some m => stageOf r? = m.1 ∧ stageOf s? = some m.2
    | none => stageOf s? = stageOf r? := by
  cases h with
  | create hnew =>
      obtain ⟨request, scheduledAt, key, now, createdAt, id, rfl⟩ :=
        hnew.eq_newJob
      refine ⟨rfl, ?_⟩
      by_cases hfuture : scheduledAt.any (now < ·) = true
      · simp [stageOf, newJob, hfuture, JobStatus.stage]
      · simp [stageOf, newJob, hfuture, JobStatus.stage]
  | @change r c hc =>
      cases c with
      | created row => exact hc.elim
      | claimed now workerId token deadline =>
          have hstatus := (Job.isClaimable_iff.mp hc).1
          exact ⟨by simp [stageOf, hstatus, JobStatus.stage], rfl⟩
      | completed now a result =>
          have hstatus := (ownedBy_iff.mp hc).2.1
          exact ⟨by simp [stageOf, hstatus, JobStatus.stage], rfl⟩
      | retryScheduled cause now a delay error =>
          have hstatus := (ownedBy_iff.mp hc.1).2.1
          exact ⟨by simp [stageOf, hstatus, JobStatus.stage], rfl⟩
      | permanentlyFailed cause now a error =>
          have hstatus := (ownedBy_iff.mp hc.1).2.1
          exact ⟨by simp [stageOf, hstatus, JobStatus.stage], rfl⟩
      | cancelled =>
          refine ⟨?_, rfl⟩
          rcases cancellable_iff.mp hc with hs | hs
          · simp [stageOf, hs, JobStatus.stage]
          · simp [stageOf, hs, JobStatus.stage]
      | retried =>
          have hstatus : r.status = .failed := hc
          exact ⟨by simp [stageOf, hstatus, JobStatus.stage], rfl⟩
      | activated now =>
          have hstatus := (Job.isDue_iff.mp hc).1
          simp [Change.move, stageOf, Change.apply, activate, hstatus,
            JobStatus.stage]
      | keyReleased => rfl
      | leaseExtended now a deadline => rfl
      | progressed a progress => rfl

/-! ## Balances -/

/-- What a move adds to the number of jobs at a stage. -/
def Move.balance (x : Stage) (m : Move) : ℤ :=
  (if m.2 = x then 1 else 0) - if m.1 = some x then 1 else 0

def Change.balance (x : Stage) (c : Change) : ℤ :=
  c.move.elim 0 (Move.balance x)

/-- One for a row at the stage. -/
def Stage.weight (x : Stage) (r : Job) : ℤ :=
  if r.status.stage = x then 1 else 0

theorem elim_weight (x : Stage) (r? : Option Job) :
    r?.elim 0 x.weight = if stageOf r? = some x then 1 else 0 := by
  cases r? with
  | none => rfl
  | some r => simp [stageOf, Stage.weight]

theorem RowStep.balance (x : Stage) {r? s? : Option Job} {c : Change}
    (h : RowStep r? c s?) :
    s?.elim 0 x.weight = r?.elim 0 x.weight + c.balance x := by
  have hmove := h.move
  rw [elim_weight, elim_weight, Change.balance]
  cases hc : c.move with
  | none =>
      rw [hc] at hmove
      rw [show stageOf s? = stageOf r? from hmove, Option.elim_none, add_zero]
  | some m =>
      rw [hc] at hmove
      obtain ⟨hbefore, hafter⟩ := hmove
      simp only [hbefore, hafter, Option.elim_some, Move.balance,
        Option.some_inj]
      ring

theorem RowPath.balance (x : Stage) {r? s? : Option Job} {cs : List Change}
    (h : RowPath r? cs s?) :
    s?.elim 0 x.weight =
      r?.elim 0 x.weight + (cs.map (Change.balance x)).sum := by
  induction h with
  | nil => simp
  | snoc _ hstep ih =>
      rw [hstep.balance x, ih, List.map_append, List.sum_append,
        List.map_singleton, List.sum_singleton, add_assoc]

theorem sum_balance (x : Stage) (moves : List Move) :
    (moves.map (Move.balance x)).sum =
      (entriesInto x moves : ℤ) - exitsFrom x moves := by
  induction moves with
  | nil => rfl
  | cons m moves ih =>
      rw [List.map_cons, List.sum_cons, ih, entriesInto, exitsFrom,
        entriesInto, exitsFrom, List.countP_cons, List.countP_cons,
        Move.balance]
      push_cast
      simp only [decide_eq_true_eq]
      ring

theorem sum_change_balance (x : Stage) (changes : List (UUID × Change)) :
    (changes.map fun y => y.2.balance x).sum =
      ((changes.filterMap fun y => y.2.move).map (Move.balance x)).sum := by
  induction changes with
  | nil => rfl
  | cons y changes ih =>
      rw [List.map_cons, List.sum_cons, ih, List.filterMap_cons,
        Change.balance]
      cases y.2.move with
      | none => simp
      | some m => simp

/-! ## Runs -/

theorem changesFor_flatMap {α : Type} (id : UUID)
    (f : α → List (UUID × Change)) (xs : List α) :
    changesFor id (xs.flatMap f) =
      xs.flatMap fun x => changesFor id (f x) := by
  simp [changesFor, List.filter_flatMap, List.map_flatMap]

theorem bookedFor_changes (id : UUID) (f : Change → ℤ)
    (changes : List (UUID × Change)) :
    KeyedTable.bookedFor id (changes.map fun y => (y.1, f y.2)) =
      ((changesFor id changes).map f).sum := by
  simp [KeyedTable.bookedFor, changesFor, List.filter_map, Function.comp_def]

def movesAfter (settings : Settings) (ops : List Op) : List Move :=
  (callsOf settings ops).flatMap movesOf

theorem left_movesAfter (settings : Settings) (ops : List Op) :
    exitsFrom .completed (movesAfter settings ops) = 0 ∧
      exitsFrom .cancelled (movesAfter settings ops) = 0 := by
  have hmoves : ∀ m ∈ movesAfter settings ops,
      m.1 ≠ some .completed ∧ m.1 ≠ some .cancelled := by
    intro m hm
    obtain ⟨call, -, hcall⟩ := List.mem_flatMap.mp hm
    exact left_movesOf hcall
  constructor
  · exact List.countP_eq_zero.mpr fun m hm => by simp [(hmoves m hm).1]
  · exact List.countP_eq_zero.mpr fun m hm => by simp [(hmoves m hm).2]

/-- What has entered a stage and not left it is there. -/
theorem stage_balance (settings : Settings) (ops : List Op) (x : Stage) :
    ((tableAfter settings ops).select fun r => r.status.stage = x).length +
        exitsFrom x (movesAfter settings ops) =
      entriesInto x (movesAfter settings ops) := by
  let changes := (callsOf settings ops).flatMap (changesOf settings)
  have hmoves : movesAfter settings ops =
      changes.filterMap fun y => y.2.move := by
    rw [movesAfter, List.filterMap_flatMap]
    exact List.flatMap_congr fun call _ => movesOf_eq settings call
  have htotal : (tableAfter settings ops).total x.weight =
      (KeyedTable.empty : Jobs).total x.weight +
        ((changes.map fun y => (y.1, y.2.balance x)).map Prod.snd).sum := by
    apply KeyedTable.total_eq_of_booked
    intro id
    have hpath := RowPath.balance x (service_run_path settings ops id)
    rw [bookedFor_changes, changesFor_flatMap]
    exact hpath
  have hcount : (tableAfter settings ops).total x.weight =
      (((tableAfter settings ops).select
        fun r => r.status.stage = x).length : ℤ) := by
    rw [← KeyedTable.total_ite]
    congr 1
    funext r
    simp [Stage.weight]
  rw [hcount, KeyedTable.total_empty, zero_add, List.map_map,
    Function.comp_def, sum_change_balance, ← hmoves, sum_balance] at htotal
  omega

end JobQueue
