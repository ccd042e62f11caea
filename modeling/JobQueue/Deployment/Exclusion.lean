import JobQueue.Deployment.Attempts
import JobQueue.Lifecycle.Endings

/-!
# Who works on a job

Several processes may be at work on one job at the same time: a lease runs out
while its owner is still busy, and another runner claims the job again.  At
most one of them works on an attempt that counts.  An attempt is worked on by
the process that claimed it and by no other; while that process works on it,
only a recovery can take the attempt away, and from then on every write of the
process is rejected.  Conversely a `PROCESSING` row belongs to the process that
claimed it, which still works on it unless it crashed, or could not reach Redis
right after the claim.
-/

namespace JobQueue

open Support

/-! ## The attempt a process works on -/

def RunnerPoint.attempt? : RunnerPoint → Option Attempt
  | .dropping _ row => (Attempt.of row).toOption
  | .executing _ attempt => some attempt
  | .unhandled _ attempt => some attempt
  | .running attempt _ => some attempt
  | _ => none

/-- The attempt a process works on, from its claim to its settling write. -/
def Process.attempt? : Process → Option Attempt
  | .runner r => r.point.attempt?
  | _ => none

/-- A write has told the process that its attempt was taken away. -/
def Process.knowsLoss : Process → Bool
  | .runner r =>
      match r.point with
      | .running _ lost => lost
      | _ => false
  | _ => false

/-- The process crashes, or Redis fails it right after a claim. -/
def Process.LetsGo (p : Process) : Action → Prop
  | .crash => True
  | .redis fault => p.isDropping = true ∧ fault ≠ .answered
  | _ => False

/-! ## One turn -/

theorem FencedWrite.eq_of_op_eq {a b : Attempt} {w w' : FencedWrite}
    (h : w.op a = w'.op b) : w = w' ∧ a = b := by
  cases w <;> cases w' <;> cases h <;> exact ⟨rfl, rfl⟩

/-- What a turn does to the attempt a process works on. -/
structure Handles (p : Process) (a : Action) (o : Option Event)
    (q : Process) : Prop where
  picked : ∀ b, q.attempt? = some b →
    p.attempt? = some b ∨
      ∃ row, claimedRow o = some row ∧ Attempt.of row = .ok b
  claimed : ∀ row b, claimedRow o = some row → Attempt.of row = .ok b →
    q.attempt? = some b
  kept : ∀ b, p.attempt? = some b →
    q.attempt? = some b ∨ p.LetsGo a ∨ p.knowsLoss = true ∨
      ∃ w outcome, FencedWrite.settles w = true ∧
        o = some (.database (w.op b) outcome)
  lost : q.knowsLoss = true →
    p.knowsLoss = true ∧ q.attempt? = p.attempt? ∨
      ∃ w b e, q.attempt? = some b ∧
        o = some (.database (FencedWrite.op b w) (.error e))
  writes : ∀ b w outcome, o = some (.database (FencedWrite.op b w) outcome) →
    p.attempt? = some b ∧ (w.settles = true → q.attempt? = none)

section

variable {p q : Process} {a : Action} {o : Option Event}

theorem Handles.steady (hsame : q.attempt? = p.attempt?)
    (hloss : q.knowsLoss = true → p.knowsLoss = true)
    (ho : callOf o = none) : Handles p a o q := by
  have hclaim : ∀ row, claimedRow o ≠ some row := by
    intro row hrow
    unfold claimedRow at hrow
    split at hrow
    · cases ho
    · cases hrow
  refine ⟨fun b hb => Or.inl (hsame.symm.trans hb),
    fun row _ hrow => absurd hrow (hclaim row),
    fun b hb => Or.inl (hsame.trans hb), fun h => Or.inl ⟨hloss h, hsame⟩, ?_⟩
  rintro b w outcome rfl
  cases ho

theorem Handles.idle (hp : p.attempt? = none) (hq : q.attempt? = none)
    (hloss : q.knowsLoss = false) (hclaim : claimedRow o = none)
    (hwrite : ∀ b w outcome,
      o ≠ some (.database (FencedWrite.op b w) outcome)) :
    Handles p a o q where
  picked b hb := by
    rw [hq] at hb
    cases hb
  claimed row b hrow := by
    rw [hclaim] at hrow
    cases hrow
  kept b hb := by
    rw [hp] at hb
    cases hb
  lost h := by
    rw [hloss] at h
    cases h
  writes b w outcome h := absurd h (hwrite b w outcome)

theorem Handles.letGo (hq : q.attempt? = none) (hloss : q.knowsLoss = false)
    (ho : callOf o = none) (hgo : p.LetsGo a) : Handles p a o q := by
  have hidle : Handles .idle a o q := by
    refine .idle rfl hq hloss ?_ ?_
    · unfold claimedRow
      split
      · cases ho
      · rfl
    · rintro b w outcome rfl
      cases ho
  exact ⟨fun b hb => absurd (hq.symm.trans hb) (Option.some_ne_none b).symm,
    hidle.claimed, fun _ _ => Or.inr (Or.inl hgo),
    fun h => absurd (hloss.symm.trans h) Bool.false_ne_true,
    fun b w outcome h => by
      rw [h] at ho
      cases ho⟩

theorem Handles.write {b : Attempt} {w : FencedWrite} {outcome : Outcome}
    (hp : p.attempt? = some b)
    (hq : q.attempt? = if w.settles then none else some b)
    (hloss : q.knowsLoss = true →
      w.settles = false ∧ (p.knowsLoss = true ∨ ∃ e, outcome = .error e)) :
    Handles p a (some (.database (w.op b) outcome)) q where
  picked c hc := by
    rw [hq] at hc
    split at hc
    · cases hc
    · exact Or.inl (hp.trans hc)
  claimed row c hrow := by cases w <;> cases hrow
  kept c hc := by
    obtain rfl := Option.some.inj (hp.symm.trans hc)
    cases hsettles : w.settles with
    | true => exact Or.inr (Or.inr (Or.inr ⟨w, outcome, hsettles, rfl⟩))
    | false =>
        rw [hsettles] at hq
        exact Or.inl hq
  lost h := by
    obtain ⟨hsettles, hknows⟩ := hloss h
    rw [hsettles] at hq
    rcases hknows with hknows | ⟨e, rfl⟩
    · exact Or.inl ⟨hknows, hq.trans hp.symm⟩
    · exact Or.inr ⟨w, b, e, hq, rfl⟩
  writes c w' outcome' h := by
    obtain ⟨hop, -⟩ := Event.database.inj (Option.some.inj h)
    obtain ⟨rfl, rfl⟩ := FencedWrite.eq_of_op_eq hop
    refine ⟨hp, fun hsettles => ?_⟩
    rw [hq, if_pos hsettles]

end

theorem Runner.attempt?_of_point {r : Runner} {point : RunnerPoint}
    (h : r.point = point) :
    (Process.runner r).attempt? = point.attempt? := by
  subst h
  rfl

theorem Runner.knowsLoss_of_point {r : Runner} {point : RunnerPoint}
    (h : r.point = point) :
    (Process.runner r).knowsLoss = (r.at point).knowsLoss := by
  subst h
  rfl

theorem handles_claim {settings : Settings} {pid : ℕ} {s : Store} {now : Time}
    {jobId : UUID} {workerId : String} {token : UUID}
    {leaseSeconds : Option Duration} {r : Runner} {left : ℕ}
    {c : QueueCandidate} {p : Process} {a : Action} (hp : p.attempt? = none) :
    (Instruction.database
        (.claimJob now jobId workerId token leaseSeconds) fun
          | .ok (.claimed none) => r.at (.inspecting left c)
          | .ok (.claimed (some row)) => r.at (.dropping c row)
          | _ => r.raise).Ensures settings pid s
      fun _ o q => Handles p a o q := by
  simp only [Instruction.Ensures, Store.perform]
  generalize hreply : ((service settings).step s.jobs
    (.claimJob now jobId workerId token leaseSeconds)).2 = outcome
  have hwrite : ∀ b w outcome', some (Event.database
      (.claimJob now jobId workerId token leaseSeconds) outcome) ≠
        some (.database (FencedWrite.op b w) outcome') := by
    intro b w outcome' h
    cases w <;> cases h
  cases outcome with
  | error e => exact .idle hp rfl rfl rfl hwrite
  | ok reply =>
      obtain ⟨row?, hrow, rfl⟩ := answer_eq_ok (execute_of_step_ok hreply)
      rcases claimJob_cases hrow with ⟨rfl, -⟩ | ⟨r', -, rfl, -⟩
      · exact .idle hp rfl rfl rfl hwrite
      · refine ⟨fun b hb => Or.inr ⟨_, rfl, ?_⟩, fun row b hrow hb => ?_,
          fun b hb => ?_, fun h => absurd h Bool.false_ne_true,
          fun b w outcome h => absurd h (hwrite b w outcome)⟩
        · obtain rfl := Option.some.inj hb
          rfl
        · obtain rfl := Option.some.inj hrow
          exact congrArg Except.toOption hb
        · rw [hp] at hb
          cases hb

/-- A call to Redis by a process that works on nothing. -/
theorem handles_redis {settings : Settings} {pid : ℕ} {s : Store}
    {op : QueueOp} {fault : Fault} {next : Option QueueReply → Process}
    {p : Process} {a : Action} (hp : p.attempt? = none)
    (hnext : ∀ reply, (next reply).attempt? = none ∧
      (next reply).knowsLoss = false) :
    (Instruction.redis op fault next).Ensures settings pid s
      fun _ o q => Handles p a o q := by
  obtain ⟨hq, hloss⟩ := hnext (s.send op fault).2
  exact .idle hp hq hloss rfl fun _ _ _ h => by cases h

/-! ### The points of a runner -/

section

variable {settings : Settings} {pid : ℕ} {s : Store} {r : Runner}

theorem Handles.onward {point point' : RunnerPoint} {a : Action}
    (hpoint : r.point = point) (hnone : point.attempt? = none)
    (hnone' : (r.at point').attempt? = none)
    (hloss : (r.at point').knowsLoss = false) :
    Handles (.runner r) a none (r.at point') :=
  .idle ((Runner.attempt?_of_point hpoint).trans hnone) hnone' hloss rfl
    fun _ _ _ h => by cases h

theorem Runner.handles_polling (hpoint : r.point = .polling) (a : Action) :
    (r.next s.jobs a).Ensures settings pid s
      fun _ o q => Handles (.runner r) a o q := by
  cases a with
  | stop => exact .steady rfl id rfl
  | crash => exact .letGo rfl rfl rfl trivial
  | go =>
      unfold Runner.next
      simp only [hpoint]
      split
      · exact .idle (Runner.attempt?_of_point hpoint) rfl rfl rfl
          fun _ _ _ h => by cases h
      · exact .onward hpoint rfl rfl rfl
  | _ =>
      unfold Runner.next
      simp only [hpoint]
      exact .steady rfl id rfl

theorem Runner.handles_checking {left : ℕ} (hpoint : r.point = .checking left)
    (a : Action) :
    (r.next s.jobs a).Ensures settings pid s
      fun _ o q => Handles (.runner r) a o q := by
  cases a with
  | stop => exact .steady rfl id rfl
  | crash => exact .letGo rfl rfl rfl trivial
  | go =>
      cases left with
      | zero =>
          unfold Runner.next
          simp only [hpoint]
          exact .onward hpoint rfl rfl rfl
      | succ left =>
          unfold Runner.next
          simp only [hpoint]
          split <;> exact .onward hpoint rfl rfl rfl
  | _ =>
      unfold Runner.next
      simp only [hpoint]
      exact .steady rfl id rfl

theorem Runner.handles_peeking {left : ℕ} (hpoint : r.point = .peeking left)
    (a : Action) :
    (r.next s.jobs a).Ensures settings pid s
      fun _ o q => Handles (.runner r) a o q := by
  cases a with
  | stop => exact .steady rfl id rfl
  | crash => exact .letGo rfl rfl rfl trivial
  | redis fault =>
      unfold Runner.next
      simp only [hpoint]
      refine handles_redis (Runner.attempt?_of_point hpoint) fun reply => ?_
      split <;> exact ⟨rfl, rfl⟩
  | _ =>
      unfold Runner.next
      simp only [hpoint]
      exact .steady rfl id rfl

theorem Runner.handles_peeked {left : ℕ} {c : QueueCandidate}
    (hpoint : r.point = .peeked left c) (a : Action) :
    (r.next s.jobs a).Ensures settings pid s
      fun _ o q => Handles (.runner r) a o q := by
  cases a with
  | stop => exact .steady rfl id rfl
  | crash => exact .letGo rfl rfl rfl trivial
  | go =>
      unfold Runner.next
      simp only [hpoint]
      split <;> exact .onward hpoint rfl rfl rfl
  | _ =>
      unfold Runner.next
      simp only [hpoint]
      exact .steady rfl id rfl

theorem Runner.handles_claiming {left : ℕ} {c : QueueCandidate}
    (hpoint : r.point = .claiming left c) (a : Action) :
    (r.next s.jobs a).Ensures settings pid s
      fun _ o q => Handles (.runner r) a o q := by
  cases a with
  | stop => exact .steady rfl id rfl
  | crash => exact .letGo rfl rfl rfl trivial
  | claim now token =>
      unfold Runner.next
      simp only [hpoint]
      exact handles_claim (Runner.attempt?_of_point hpoint)
  | _ =>
      unfold Runner.next
      simp only [hpoint]
      exact .steady rfl id rfl

theorem Runner.handles_inspecting {left : ℕ} {c : QueueCandidate}
    (hpoint : r.point = .inspecting left c) (a : Action) :
    (r.next s.jobs a).Ensures settings pid s
      fun _ o q => Handles (.runner r) a o q := by
  cases a with
  | stop => exact .steady rfl id rfl
  | crash => exact .letGo rfl rfl rfl trivial
  | read now =>
      unfold Runner.next
      simp only [hpoint]
      split <;> exact .onward hpoint rfl rfl rfl
  | _ =>
      unfold Runner.next
      simp only [hpoint]
      exact .steady rfl id rfl

theorem Runner.handles_discarding {left : ℕ} {c : QueueCandidate}
    (hpoint : r.point = .discarding left c) (a : Action) :
    (r.next s.jobs a).Ensures settings pid s
      fun _ o q => Handles (.runner r) a o q := by
  cases a with
  | stop => exact .steady rfl id rfl
  | crash => exact .letGo rfl rfl rfl trivial
  | redis fault =>
      unfold Runner.next
      simp only [hpoint]
      refine handles_redis (Runner.attempt?_of_point hpoint) fun reply => ?_
      split <;> exact ⟨rfl, rfl⟩
  | _ =>
      unfold Runner.next
      simp only [hpoint]
      exact .steady rfl id rfl

/-- Redis may fail the runner right after its claim. -/
theorem Runner.handles_dropping {c : QueueCandidate} {row : Job}
    (hpoint : r.point = .dropping c row) (a : Action) :
    (r.next s.jobs a).Ensures settings pid s
      fun _ o q => Handles (.runner r) a o q := by
  cases a with
  | stop => exact .steady rfl id rfl
  | crash => exact .letGo rfl rfl rfl trivial
  | redis fault =>
      unfold Runner.next
      simp only [hpoint]
      have hdropping : (Process.runner r).isDropping = true := by
        simp [Process.isDropping, hpoint]
      cases fault with
      | answered =>
          simp only [Instruction.Ensures, Store.perform, Store.send]
          cases hattempt : Attempt.of row with
          | ok attempt =>
              refine .steady ?_ (fun h => by cases h) rfl
              rw [Runner.attempt?_of_point hpoint, RunnerPoint.attempt?,
                hattempt]
              rfl
          | error e =>
              refine .steady ?_ (fun h => by cases h) rfl
              rw [Runner.attempt?_of_point hpoint, RunnerPoint.attempt?,
                hattempt]
              rfl
      | lostRequest => exact .letGo rfl rfl rfl ⟨hdropping, by simp⟩
      | lostReply => exact .letGo rfl rfl rfl ⟨hdropping, by simp⟩
  | _ =>
      unfold Runner.next
      simp only [hpoint]
      exact .steady rfl id rfl

theorem Runner.handles_executing {row : Job} {attempt : Attempt}
    (hpoint : r.point = .executing row attempt) (a : Action) :
    (r.next s.jobs a).Ensures settings pid s
      fun _ o q => Handles (.runner r) a o q := by
  cases a with
  | stop => exact .steady rfl id rfl
  | crash => exact .letGo rfl rfl rfl trivial
  | go =>
      unfold Runner.next
      simp only [hpoint]
      split
      · exact .steady (Runner.attempt?_of_point hpoint).symm
          (fun h => by cases h) rfl
      · exact .steady (Runner.attempt?_of_point hpoint).symm
          (fun h => by cases h) rfl
  | _ =>
      unfold Runner.next
      simp only [hpoint]
      exact .steady rfl id rfl

theorem Runner.handles_unhandled {row : Job} {attempt : Attempt}
    (hpoint : r.point = .unhandled row attempt) (a : Action) :
    (r.next s.jobs a).Ensures settings pid s
      fun _ o q => Handles (.runner r) a o q := by
  cases a with
  | stop => exact .steady rfl id rfl
  | crash => exact .letGo rfl rfl rfl trivial
  | fail now error =>
      unfold Runner.next
      simp only [hpoint]
      exact Handles.write (w := .failAttempt now _)
        (Runner.attempt?_of_point hpoint) rfl fun h => by cases h
  | _ =>
      unfold Runner.next
      simp only [hpoint]
      exact .steady rfl id rfl

/-- A beat or a report, which may tell of the loss. -/
theorem Runner.handles_upkeep {attempt : Attempt} {lost : Bool}
    (hpoint : r.point = .running attempt lost) {w : FencedWrite}
    (hw : w.settles = false) (a : Action) :
    (Instruction.database (w.op attempt) fun
        | .error _ => r.at (.running attempt true)
        | .ok _ => r.at (.running attempt lost)).Ensures settings pid s
      fun _ o q => Handles (.runner r) a o q := by
  refine Handles.write (Runner.attempt?_of_point hpoint) ?_ ?_
  · simp only [Store.perform, hw]
    split <;> rfl
  · intro h
    refine ⟨hw, ?_⟩
    rw [Runner.knowsLoss_of_point hpoint]
    simp only [Store.perform] at h
    split at h
    · next e heq => exact Or.inr ⟨e, heq⟩
    · exact Or.inl h

theorem Runner.handles_running {attempt : Attempt} {lost : Bool}
    (hpoint : r.point = .running attempt lost) (a : Action) :
    (r.next s.jobs a).Ensures settings pid s
      fun _ o q => Handles (.runner r) a o q := by
  cases a with
  | stop => exact .steady rfl id rfl
  | crash => exact .letGo rfl rfl rfl trivial
  | beat now =>
      unfold Runner.next
      simp only [hpoint]
      exact Runner.handles_upkeep hpoint
        (w := .extendLease now (some r.leaseSeconds)) rfl _
  | progress progress =>
      unfold Runner.next
      simp only [hpoint]
      exact Runner.handles_upkeep hpoint (w := .updateProgress progress) rfl _
  | complete now result =>
      unfold Runner.next
      simp only [hpoint]
      exact Handles.write (w := .completeJob now result)
        (Runner.attempt?_of_point hpoint) rfl fun h => by cases h
  | fail now error =>
      unfold Runner.next
      simp only [hpoint]
      exact Handles.write (w := .failAttempt now error)
        (Runner.attempt?_of_point hpoint) rfl fun h => by cases h
  | abandon =>
      cases lost with
      | true =>
          -- The runner gives up an attempt it knows to be lost.
          unfold Runner.next
          simp only [hpoint]
          refine ⟨(fun b hb => by cases hb), (fun row b hrow => by cases hrow),
            (fun b hb => Or.inr (Or.inr (Or.inl ?_))), (fun h => by cases h),
            (fun b w outcome h => by cases h)⟩
          rw [Runner.knowsLoss_of_point hpoint]
          rfl
      | false =>
          unfold Runner.next
          simp only [hpoint]
          exact .steady rfl id rfl
  | _ =>
      unfold Runner.next
      simp only [hpoint]
      exact .steady rfl id rfl

end

theorem Runner.handles (settings : Settings) (pid : ℕ) (s : Store) (r : Runner)
    (a : Action) :
    (r.next s.jobs a).Ensures settings pid s
      fun _ o q => Handles (.runner r) a o q := by
  cases hpoint : r.point with
  | polling => exact Runner.handles_polling hpoint a
  | checking left => exact Runner.handles_checking hpoint a
  | peeking left => exact Runner.handles_peeking hpoint a
  | peeked left c => exact Runner.handles_peeked hpoint a
  | claiming left c => exact Runner.handles_claiming hpoint a
  | inspecting left c => exact Runner.handles_inspecting hpoint a
  | discarding left c => exact Runner.handles_discarding hpoint a
  | dropping c row => exact Runner.handles_dropping hpoint a
  | executing row attempt => exact Runner.handles_executing hpoint a
  | unhandled row attempt => exact Runner.handles_unhandled hpoint a
  | running attempt lost => exact Runner.handles_running hpoint a

/-- The calls of API requests and of cycles are no fenced writes. -/
theorem Process.handles (settings : Settings) (pid : ℕ) (s : Store)
    (p : Process) (a : Action) :
    (p.next pid s a).Ensures settings pid s fun _ o q => Handles p a o q := by
  have hpublish : ∀ rows, (Process.publish rows).attempt? = none ∧
      (Process.publish rows).knowsLoss = false := by
    intro rows
    cases rows <;> exact ⟨rfl, rfl⟩
  unfold Process.next
  split
  · next call =>
      cases call with
      | submitJob request key =>
          by_cases hkey : truthyKey key = true
          · exact .steady (by simp [Process.ofCall, Store.perform, hkey,
              Process.attempt?]) (by simp [Process.ofCall, Store.perform,
              hkey, Process.knowsLoss]) rfl
          · exact .steady (by simp [Process.ofCall, Store.perform, hkey,
              Process.attempt?]) (by simp [Process.ofCall, Store.perform,
              hkey, Process.knowsLoss]) rfl
      | _ => exact .steady rfl id rfl
  · split <;> exact .steady rfl id rfl
  · exact .idle rfl (hpublish _).1 (hpublish _).2 rfl
      fun _ w _ h => by cases w <;> cases h
  · next row rest fault =>
      refine .steady (hpublish _).1 (fun h => ?_) rfl
      exact absurd ((hpublish _).2.symm.trans h) Bool.false_ne_true
  · refine .idle rfl ?_ ?_ rfl fun _ w _ h => by cases w <;> cases h
    · simp only [Store.perform]
      split
      · split <;> rfl
      · rfl
    · simp only [Store.perform]
      split
      · split <;> rfl
      · rfl
  · refine .steady ?_ ?_ rfl
    · simp only [Store.perform]
      split
      · split <;> rfl
      · rfl
    · intro h
      simp only [Store.perform] at h
      split at h
      · split at h <;> cases h
      · cases h
  · exact .steady rfl id rfl
  · exact .idle rfl (hpublish _).1 (hpublish _).2 rfl
      fun _ w _ h => by cases w <;> cases h
  · exact .steady rfl id rfl
  · exact .idle rfl (hpublish _).1 (hpublish _).2 rfl
      fun _ w _ h => by cases w <;> cases h
  · exact .idle rfl rfl rfl rfl fun _ w _ h => by cases w <;> cases h
  · exact Runner.handles settings pid s _ _
  · exact .steady rfl id rfl
  · exact .steady rfl id rfl
  · exact .letGo rfl rfl rfl trivial
  · exact .steady rfl id rfl

/-! ## Claims and recoveries in a history -/

/-- The process made the claim that handed out the attempt. -/
def ClaimedBy (h : History) (pid : ℕ) (a : Attempt) : Prop :=
  ∃ action now jobId workerId leaseSeconds row,
    ((pid, action), some (.database
      (.claimJob now jobId workerId a.executionToken leaseSeconds)
      (.ok (.claimed (some row))))) ∈ h ∧
    Attempt.of row = .ok a

/-- A recovery took the attempt away. -/
def TakenAway (h : History) (a : Attempt) : Prop :=
  ∃ x ∈ h, ∃ now limit locked results,
    x.2 = some (.database (.recoverExpiredLeases now limit locked)
      (.ok (.recovered results))) ∧
    ∃ y ∈ results, a.SameClaim y.1

/-- What a list yields without repetition is yielded by one of its elements
each. -/
theorem eq_of_nodup_filterMap {α β : Type*} {f : α → Option β} {xs : List α}
    (h : (xs.filterMap f).Nodup) {x y : α} (hx : x ∈ xs) (hy : y ∈ xs) {b : β}
    (hxb : f x = some b) (hyb : f y = some b) : x = y := by
  obtain ⟨before, after, rfl⟩ := List.append_of_mem hx
  rw [List.filterMap_append, List.filterMap_cons_some hxb, List.nodup_middle,
    List.nodup_cons, List.mem_append] at h
  rcases List.mem_append.mp hy with hbefore | hrest
  · exact (h.1 (Or.inl (List.mem_filterMap.mpr ⟨y, hbefore, hyb⟩))).elim
  · rcases List.mem_cons.mp hrest with hhead | hafter
    · exact hhead.symm
    · exact (h.1 (Or.inr (List.mem_filterMap.mpr ⟨y, hafter, hyb⟩))).elim

/-- A call that ends a claim is a settling write made with its attempt, or a
recovery. -/
theorem endsClaim_cases {a : Attempt} {op : Op} {outcome : Outcome}
    (h : endsClaim a (op, outcome) = true) :
    (∃ b w, FencedWrite.settles w = true ∧ op = w.op b ∧ a.SameClaim b) ∨
      ∃ now limit locked results,
        op = .recoverExpiredLeases now limit locked ∧
        outcome = .ok (.recovered results) ∧ ∃ y ∈ results, a.SameClaim y.1 := by
  unfold endsClaim at h
  split at h
  · next now b result row heq =>
      obtain ⟨rfl, rfl⟩ := Prod.mk.inj heq
      exact Or.inl ⟨b, .completeJob now result, rfl, rfl, of_decide_eq_true h⟩
  · next now b error result heq =>
      obtain ⟨rfl, rfl⟩ := Prod.mk.inj heq
      exact Or.inl ⟨b, .failAttempt now error, rfl, rfl, of_decide_eq_true h⟩
  · next now limit locked results heq =>
      obtain ⟨rfl, rfl⟩ := Prod.mk.inj heq
      obtain ⟨y, hy, hsame⟩ := List.any_eq_true.mp h
      exact Or.inr ⟨now, limit, locked, results, rfl, rfl, y, hy,
        of_decide_eq_true hsame⟩
  · cases h

/-- The call after which an attempt is over ended it. -/
theorem HandedOut.ends_of_isOver {settings : Settings} {ops : List Op}
    {op : Op} {a : Attempt} (h : HandedOut settings ops a)
    (htokens : (mintedTokens (ops ++ [op])).Nodup)
    (hbefore : ¬ IsOver settings ops a)
    (hafter : IsOver settings (ops ++ [op]) a) :
    endsClaim a
      (op, ((service settings).step (tableAfter settings ops) op).2) =
        true := by
  by_contra hne
  obtain ⟨before, claim, after, rfl, hobtained⟩ := h
  have hlive : ¬ Ended settings before claim (after ++ [op]) a := by
    rintro ⟨call, hcall, hends⟩
    rw [Machine.trace_append, ← tableAfter_claim] at hcall
    rcases List.mem_append.mp hcall with hold | hnew
    · exact hbefore ⟨before, claim, after, rfl, hobtained, call, hold, hends⟩
    · obtain rfl := List.mem_singleton.mp hnew
      exact hne hends
  obtain ⟨r, hr⟩ := hobtained.live_of_not_ended hlive
  have hsplit : before ++ claim :: after ++ [op] =
      before ++ claim :: (after ++ [op]) := by simp
  rw [← hsplit] at hr
  exact hafter.token_ne htokens (KeyedTable.find?_eq_some_iff.mp hr.row).1
    hr.holds.token

section

variable {settings : Settings} {h : History} {s : Store}

theorem ClaimedBy.handedOut (hs : Projects settings h s) {pid : ℕ}
    {a : Attempt} (hclaim : ClaimedBy h pid a) :
    HandedOut settings (databaseOps h) a := by
  obtain ⟨action, now, jobId, workerId, leaseSeconds, row, hmem, hof⟩ := hclaim
  have hcall : (Op.claimJob now jobId workerId a.executionToken leaseSeconds,
      Except.ok (Reply.claimed (some row))) ∈
        callsOf settings (databaseOps h) := by
    rw [hs.calls]
    exact List.mem_filterMap.mpr ⟨_, hmem, rfl⟩
  obtain ⟨before, after, hops, hreply⟩ := Machine.exists_of_mem_trace _ hcall
  exact ⟨before, _, after, hops, _, _, _, _, _, _, rfl, hreply.symm, hof⟩

theorem ClaimedBy.unique (htokens : (mintedTokens (databaseOps h)).Nodup)
    {pid pid' : ℕ} {a b : Attempt} (ha : ClaimedBy h pid a)
    (hb : ClaimedBy h pid' b) (hsame : a.executionToken = b.executionToken) :
    pid = pid' := by
  obtain ⟨_, _, _, _, _, _, hmem, -⟩ := ha
  obtain ⟨_, _, _, _, _, _, hmem', -⟩ := hb
  rw [mintedTokens, databaseOps, List.filterMap_filterMap] at htokens
  have heq := eq_of_nodup_filterMap htokens hmem hmem' rfl
    (congrArg some hsame.symm)
  exact (Prod.mk.inj (Prod.mk.inj heq).1).1

end

/-! ## What holds of every process -/

/-- What holds of the attempt a process works on. -/
structure Works (settings : Settings) (h : History) (pid : ℕ)
    (p : Process) : Prop where
  claimed : ∀ a, p.attempt? = some a → ClaimedBy h pid a
  lost : ∀ a, p.attempt? = some a → p.knowsLoss = true →
    IsOver settings (databaseOps h) a
  taken : ∀ a, p.attempt? = some a → IsOver settings (databaseOps h) a →
    TakenAway h a

theorem ClaimedBy.append {h : History} {pid : ℕ} {a : Attempt}
    (hclaim : ClaimedBy h pid a) (later : History) :
    ClaimedBy (h ++ later) pid a := by
  obtain ⟨action, now, jobId, workerId, leaseSeconds, row, hmem, hof⟩ := hclaim
  exact ⟨action, now, jobId, workerId, leaseSeconds, row,
    List.mem_append_left _ hmem, hof⟩

theorem TakenAway.append {h : History} {a : Attempt} (htaken : TakenAway h a)
    (later : History) : TakenAway (h ++ later) a := by
  obtain ⟨x, hx, hrecovered⟩ := htaken
  exact ⟨x, List.mem_append_left _ hx, hrecovered⟩

section

variable {settings : Settings} {h : History} {s : Store} {pid : ℕ}
  {p : Process} {a : Action}

def entry (settings : Settings) (pid : ℕ) (s : Store) (p : Process)
    (a : Action) : (ℕ × Action) × Option Event :=
  ((pid, a), ((deployment settings).act pid s p a).2.2)

theorem nodup_of_concat {x : (ℕ × Action) × Option Event}
    (htokens : (mintedTokens (databaseOps (h ++ [x]))).Nodup) :
    (mintedTokens (databaseOps h)).Nodup := by
  rw [databaseOps_concat, mintedTokens, List.filterMap_append] at htokens
  exact htokens.of_append_left

theorem isOver_append {b : Attempt}
    (hover : IsOver settings (databaseOps h) b) (later : History) :
    IsOver settings (databaseOps (h ++ later)) b := by
  rw [databaseOps, List.filterMap_append]
  exact hover.append _

theorem ClaimedBy.here (hs : Projects settings h s) {row : Job} {b : Attempt}
    (hclaim : claimedRow ((deployment settings).act pid s p a).2.2 = some row)
    (hof : Attempt.of row = .ok b) :
    ClaimedBy (h ++ [entry settings pid s p a]) pid b ∧
      ¬ ((mintedTokens (databaseOps (h ++ [entry settings pid s p a]))).Nodup ∧
        IsOver settings (databaseOps (h ++ [entry settings pid s p a])) b) := by
  generalize hevent : ((deployment settings).act pid s p a).2.2 = o at hclaim
  unfold claimedRow at hclaim
  split at hclaim
  · next now jobId workerId token leaseSeconds row? =>
      obtain rfl := hclaim
      have houtcome := perform_outcome hevent
      obtain ⟨b', hof', htoken⟩ := attempt_of_claimed houtcome.symm
      obtain rfl := Except.ok.inj (hof.symm.trans hof')
      subst htoken
      refine ⟨⟨a, now, jobId, workerId, leaseSeconds, row,
        List.mem_append_right _ ?_, hof⟩, ?_⟩
      · rw [entry, hevent]
        exact List.mem_singleton_self _
      · rintro ⟨htokens, hover⟩
        rw [databaseOps_concat, entry, hevent] at htokens hover
        rw [hs.jobs] at houtcome
        have hobtained : Obtained settings (databaseOps h)
            (.claimJob now jobId workerId b.executionToken leaseSeconds) b :=
          ⟨_, _, _, _, _, row, rfl, houtcome.symm, hof⟩
        obtain ⟨-, r, hr⟩ := hobtained.live
        exact hover.token_ne htokens
          (KeyedTable.find?_eq_some_iff.mp hr.row).1 hr.holds.token
  · cases hclaim

/-- Only a recovery takes away an attempt that its process still works on. -/
theorem takenAway_concat (hs : Projects settings h s)
    (htokens :
      (mintedTokens (databaseOps (h ++ [entry settings pid s p a]))).Nodup)
    {who : ℕ} {b : Attempt} (hclaim : ClaimedBy h who b)
    (hwrites : ∀ c w outcome,
      ((deployment settings).act pid s p a).2.2 =
        some (.database (FencedWrite.op c w) outcome) →
      w.settles = true → b.executionToken ≠ c.executionToken)
    (hbefore : IsOver settings (databaseOps h) b → TakenAway h b)
    (hover :
      IsOver settings (databaseOps (h ++ [entry settings pid s p a])) b) :
    TakenAway (h ++ [entry settings pid s p a]) b := by
  by_cases hold : IsOver settings (databaseOps h) b
  · exact (hbefore hold).append _
  · rw [databaseOps_concat] at htokens hover
    cases hcall : callOf (entry settings pid s p a).2 with
    | none =>
        rw [hcall] at hover
        exact (hold (by simpa using hover)).elim
    | some call =>
        rw [hcall] at hover htokens
        have hevent := eq_some_of_callOf hcall
        have houtcome := perform_outcome hevent
        have hends := (hclaim.handedOut hs).ends_of_isOver htokens hold hover
        rw [← hs.jobs, ← houtcome] at hends
        rcases endsClaim_cases hends with ⟨c, w, hsettles, hop, hsame⟩ |
          ⟨now, limit, locked, results, hop, hreply, y, hy, hsame⟩
        · rw [hop] at hevent
          exact (hwrites c w _ hevent hsettles hsame.2.symm).elim
        · rw [hop, hreply] at hevent
          exact ⟨_, List.mem_append_right _ (List.mem_singleton_self _), now,
            limit, locked, results, hevent, y, hy, hsame⟩

theorem Works.act (hs : Projects settings h s)
    (htokens :
      (mintedTokens (databaseOps (h ++ [entry settings pid s p a]))).Nodup)
    (hp : Works settings h pid p) :
    Works settings (h ++ [entry settings pid s p a]) pid
      ((deployment settings).act pid s p a).2.1 := by
  have hturn := Process.handles settings pid s p a
  have hbefore := nodup_of_concat htokens
  constructor
  · intro b hb
    rcases hturn.picked b hb with hold | ⟨row, hclaim, hof⟩
    · exact (hp.claimed b hold).append _
    · exact (ClaimedBy.here hs hclaim hof).1
  · intro b hb hknows
    rcases hturn.lost hknows with ⟨hknew, hsame⟩ | ⟨w, c, e, hc, hevent⟩
    · exact isOver_append (hp.lost b (hsame.symm.trans hb) hknew) _
    · obtain rfl := Option.some.inj (hc.symm.trans hb)
      have hclaim := hp.claimed c (hturn.writes c w _ hevent).1
      have houtcome := perform_outcome hevent
      rw [hs.jobs] at houtcome
      rcases (hclaim.handedOut hs).write_cases hbefore w with
        ⟨reply, hreply, -⟩ | ⟨hover, -⟩
      · rw [hreply] at houtcome
        cases houtcome
      · exact isOver_append hover _
  · intro b hb hover
    rcases hturn.picked b hb with hold | ⟨row, hclaim, hof⟩
    · refine takenAway_concat hs htokens (hp.claimed b hold) ?_
        (hp.taken b hold) hover
      intro c w outcome hevent hsettles
      have hnone := (hturn.writes c w outcome hevent).2 hsettles
      exact absurd (hnone.symm.trans hb) (Option.some_ne_none b).symm
    · exact ((ClaimedBy.here hs hclaim hof).2 ⟨htokens, hover⟩).elim

theorem Works.other (hs : Projects settings h s)
    (htokens :
      (mintedTokens (databaseOps (h ++ [entry settings pid s p a]))).Nodup)
    (hp : Works settings h pid p) {other : ℕ} {q : Process}
    (hne : other ≠ pid) (hq : Works settings h other q) :
    Works settings (h ++ [entry settings pid s p a]) other q := by
  have hbefore := nodup_of_concat htokens
  constructor
  · intro b hb
    exact (hq.claimed b hb).append _
  · intro b hb hknows
    exact isOver_append (hq.lost b hb hknows) _
  · intro b hb hover
    refine takenAway_concat hs htokens (hq.claimed b hb) ?_ (hq.taken b hb)
      hover
    intro c w outcome hevent _ hsame
    have hc := ((Process.handles settings pid s p a).writes c w outcome
      hevent).1
    exact hne ((hq.claimed b hb).unique hbefore (hp.claimed c hc) hsame)

end

/-- The claims of a run draw different tokens. -/
def TokensDiffer (settings : Settings) (actions : List (ℕ × Action)) : Prop :=
  (mintedTokens (databaseOps (historyAfter settings actions))).Nodup

theorem works_after {settings : Settings} {actions : List (ℕ × Action)}
    (htokens : TokensDiffer settings actions) (pid : ℕ) :
    Works settings (historyAfter settings actions) pid
      ((after settings actions).process pid) := by
  refine (deployment_invariant settings (G := fun _ _ => True)
    (L := fun h _ pid p => (mintedTokens (databaseOps h)).Nodup →
      Works settings h pid p) trivial (fun _ _ => ?_) ?_ ?_ actions).2.2 pid
    htokens
  · exact ⟨(fun _ hb => by cases hb), (fun _ hb => by cases hb),
      (fun _ hb => by cases hb)⟩
  · intro h s pid p a hs _ hp
    exact ⟨trivial, fun hnodup =>
      Works.act hs hnodup (hp (nodup_of_concat hnodup))⟩
  · intro h s pid p a other q hs _ hp hne hq hnodup
    have hbefore := nodup_of_concat hnodup
    exact Works.other hs hnodup (hp hbefore) hne (hq hbefore)

/-! ## Attempts nobody works on -/

/-- The process was working on the attempt when it crashed, or when Redis
failed it right after the claim. -/
def Abandoned (settings : Settings) (actions : List (ℕ × Action)) (pid : ℕ)
    (a : Attempt) : Prop :=
  ∃ n action, actions[n]? = some (pid, action) ∧
    ((after settings (actions.take n)).process pid).attempt? = some a ∧
    ((after settings (actions.take n)).process pid).LetsGo action

theorem Abandoned.append {settings : Settings} {actions : List (ℕ × Action)}
    {pid : ℕ} {a : Attempt} (h : Abandoned settings actions pid a)
    (later : List (ℕ × Action)) :
    Abandoned settings (actions ++ later) pid a := by
  obtain ⟨n, action, hn, hwork, hgo⟩ := h
  have hlt := (List.getElem?_eq_some_iff.mp hn).1
  have htake : (actions ++ later).take n = actions.take n :=
    List.take_append_of_le_length hlt.le
  refine ⟨n, action, ?_, ?_, ?_⟩
  · rw [List.getElem?_append_left hlt, hn]
  · rwa [htake]
  · rwa [htake]

/-- The process that claimed an attempt works on it until it is over, unless
it lets go of it. -/
theorem attempt_followed {settings : Settings} {actions : List (ℕ × Action)}
    (htokens : TokensDiffer settings actions) {pid : ℕ} {b : Attempt}
    (hclaim : ClaimedBy (historyAfter settings actions) pid b) :
    ((after settings actions).process pid).attempt? = some b ∨
      IsOver settings (databaseOps (historyAfter settings actions)) b ∨
      Abandoned settings actions pid b := by
  induction actions using List.reverseRecOn with
  | nil =>
      obtain ⟨_, _, _, _, _, _, hmem, -⟩ := hclaim
      cases hmem
  | append_singleton actions x ih =>
      obtain ⟨who, a⟩ := x
      have hs := projects_after settings actions
      have hhistory := historyAfter_concat settings actions (who, a)
      have hbefore : TokensDiffer settings actions := by
        rw [TokensDiffer, hhistory] at htokens
        exact nodup_of_concat htokens
      have hturn := Process.handles settings who
        (after settings actions).shared ((after settings actions).process who) a
      rw [hhistory] at hclaim ⊢
      obtain ⟨action, now, jobId, workerId, leaseSeconds, row, hmem, hof⟩ :=
        id hclaim
      rcases List.mem_append.mp hmem with hold | hnew
      · rcases ih hbefore ⟨action, now, jobId, workerId, leaseSeconds, row,
          hold, hof⟩ with hwork | hover | habandoned
        · by_cases hwho : pid = who
          · subst hwho
            rw [process_after_concat]
            rcases hturn.kept b hwork with
              hkeep | hgo | hknows | ⟨w, outcome, hsettles, hevent⟩
            · exact Or.inl hkeep
            · refine Or.inr (Or.inr ⟨actions.length, a, by simp, ?_, ?_⟩)
              · rwa [List.take_left]
              · rwa [List.take_left]
            · exact Or.inr (Or.inl (isOver_append
                ((works_after hbefore pid).lost b hwork hknows) _))
            · refine Or.inr (Or.inl ?_)
              have houtcome := perform_outcome hevent
              rw [hs.jobs] at houtcome
              have hhanded := ((works_after hbefore pid).claimed b
                hwork).handedOut hs
              rcases hhanded.write_cases hbefore w with
                ⟨reply, hreply, -⟩ | ⟨hover, -⟩
              · rw [databaseOps_concat]
                have hcall : callOf (nextEvent settings actions (pid, a)) =
                    some (w.op b, outcome) := congrArg callOf hevent
                rw [hcall]
                exact hhanded.isOver_of_settled hsettles hreply
              · exact isOver_append hover _
          · rw [process_after_other settings actions hwho]
            exact Or.inl hwork
        · exact Or.inr (Or.inl (isOver_append hover _))
        · exact Or.inr (Or.inr (habandoned.append _))
      · obtain ⟨hwho, hevent⟩ := Prod.mk.inj (List.mem_singleton.mp hnew)
        obtain ⟨rfl, rfl⟩ := Prod.mk.inj hwho
        rw [process_after_concat]
        refine Or.inl (hturn.claimed row b ?_ hof)
        change claimedRow (nextEvent settings actions (pid, action)) = _
        rw [← hevent]
        rfl

/-! ## At most one of them counts -/

/-- A `PROCESSING` row is held under an attempt that some process claimed. -/
theorem exists_claimer {settings : Settings} {h : History} {s : Store}
    (hs : Projects settings h s)
    (htokens : (mintedTokens (databaseOps h)).Nodup) {r : Job}
    (hr : r ∈ s.jobs.rows) (hstatus : r.status = .processing) :
    ∃ pid a, r.Holds a ∧ ClaimedBy h pid a ∧
      ¬ IsOver settings (databaseOps h) a := by
  have hfind := KeyedTable.find?_of_mem hr
  have howner := (hs.wellformed r.id r hfind).ownership
  obtain ⟨token, htoken⟩ := Option.isSome_iff_exists.mp
    (howner.token.mp (howner.worker.mp hstatus))
  rw [hs.jobs] at hfind hr
  obtain ⟨now, workerId, leaseSeconds, row, hcall⟩ :=
    claim_of_token hfind htoken
  obtain ⟨before, after, hops, hreply⟩ := Machine.exists_of_mem_trace _ hcall
  obtain ⟨a, hof, rfl⟩ := attempt_of_claimed hreply.symm
  have hobtained : Obtained settings before _ a :=
    ⟨_, _, _, _, _, row, rfl, hreply.symm, hof⟩
  have hlive : ¬ IsOver settings (databaseOps h) a := fun hover =>
    hover.token_ne htokens hr htoken
  rw [hs.calls] at hcall
  obtain ⟨x, hx, hevent⟩ := List.mem_filterMap.mp hcall
  obtain ⟨⟨pid, action⟩, o⟩ := x
  obtain rfl : o = _ := eq_some_of_callOf hevent
  obtain ⟨s', hs'⟩ := HandedOut.live_or_isOver
    ⟨before, _, after, hops, hobtained⟩ |>.resolve_right hlive
  have hrow := hs'.row
  rw [hobtained.jobId, hfind] at hrow
  obtain rfl := Option.some.inj hrow
  exact ⟨pid, a, hs'.holds, ⟨action, now, r.id, workerId, leaseSeconds, row,
    hx, hof⟩, hlive⟩

/-- Executions are exclusive.  In every state of a deployment whose claims draw
different tokens, with any number of processes, crashes and Redis faults: every
process works on an attempt it claimed itself, and all its writes take effect,
or a recovery took the attempt away and all its writes are rejected; of two
processes that work on one job at least one is in the latter case; and every
`PROCESSING` row belongs to the process that claimed it, which works on it or
has let go of it by a crash or for want of Redis. -/
theorem executions_are_exclusive (settings : Settings)
    (actions : List (ℕ × Action)) (htokens : TokensDiffer settings actions) :
    let history := historyAfter settings actions
    let jobs := (after settings actions).shared.jobs
    let works (pid : ℕ) (a : Attempt) : Prop :=
      ((after settings actions).process pid).attempt? = some a
    let overtaken (a : Attempt) : Prop :=
      TakenAway history a ∧ ∀ w, Rejected settings jobs a w
    (∀ pid a, works pid a → ClaimedBy history pid a ∧
      ((∀ w, TakesEffect settings jobs a w) ∨ overtaken a)) ∧
    (∀ pid pid' a b, works pid a → works pid' b → pid ≠ pid' →
      a.jobId = b.jobId → overtaken a ∨ overtaken b) ∧
    ∀ r ∈ jobs.rows, r.status = .processing →
      ∃ pid a, r.Holds a ∧ ClaimedBy history pid a ∧
        (works pid a ∨ Abandoned settings actions pid a) := by
  intro history jobs works overtaken
  have hs := projects_after settings actions
  have hcases : ∀ pid a, works pid a → ClaimedBy history pid a ∧
      ((∃ r, Live jobs a r) ∨ overtaken a) := by
    intro pid a hwork
    have hw := works_after htokens pid
    have hclaim := hw.claimed a hwork
    refine ⟨hclaim, ?_⟩
    rcases (hclaim.handedOut hs).live_or_isOver with hlive | hover
    · rw [← hs.jobs] at hlive
      exact Or.inl hlive
    · refine Or.inr ⟨hw.taken a hwork hover, fun w => ?_⟩
      have hrejected := hover.rejected htokens w
      rwa [← hs.jobs] at hrejected
  refine ⟨fun pid a hwork => ?_, fun pid pid' a b ha hb hne hjob => ?_,
    fun r hr hstatus => ?_⟩
  · obtain ⟨hclaim, ⟨r, hr⟩ | hover⟩ := hcases pid a hwork
    · exact ⟨hclaim, Or.inl (hr.takesEffect settings)⟩
    · exact ⟨hclaim, Or.inr hover⟩
  · obtain ⟨hclaim, ⟨r, hr⟩ | hover⟩ := hcases pid a ha
    · obtain ⟨hclaim', ⟨r', hr'⟩ | hover'⟩ := hcases pid' b hb
      · have hrow := hr'.row
        rw [← hjob, hr.row] at hrow
        obtain rfl := Option.some.inj hrow
        have hsame := hr.holds.token.symm.trans hr'.holds.token
        exact (hne (hclaim.unique htokens hclaim'
          (Option.some.inj hsame))).elim
      · exact Or.inr hover'
    · exact Or.inl hover
  · obtain ⟨pid, a, hholds, hclaim, hlive⟩ :=
      exists_claimer hs htokens hr hstatus
    refine ⟨pid, a, hholds, hclaim, ?_⟩
    exact (attempt_followed htokens hclaim).imp_right fun hrest =>
      hrest.resolve_left hlive

/-- The lease of a job runs out while its handler runs, and another runner
starts the handler again. -/
def overtakenRun : List (ℕ × Action) :=
  answeredRun ++ recoverAt 2 (seconds 61) ++ scheduleAt 3 (seconds 100) ++
  [(4, .start (.runForever "other" (seconds 60))), (4, .go), (4, .go),
   (4, .redis .answered), (4, .go), (4, .claim (seconds 100) 72),
   (4, .redis .answered), (4, .go)]

/-- Both runners work on the job. -/
theorem executions_are_exclusive_overtaken :
    ((after sampleSettings overtakenRun).process 1).attempt? =
        some ⟨1, "worker", 71, 1, 3⟩ ∧
      ((after sampleSettings overtakenRun).process 4).attempt? =
        some ⟨1, "other", 72, 2, 3⟩ ∧
      ((∀ w, Rejected sampleSettings
          (after sampleSettings overtakenRun).shared.jobs
          ⟨1, "worker", 71, 1, 3⟩ w) ∨
        ∀ w, Rejected sampleSettings
          (after sampleSettings overtakenRun).shared.jobs
          ⟨1, "other", 72, 2, 3⟩ w) := by
  have hfirst : ((after sampleSettings overtakenRun).process 1).attempt? =
      some ⟨1, "worker", 71, 1, 3⟩ := by decide +kernel
  have hsecond : ((after sampleSettings overtakenRun).process 4).attempt? =
      some ⟨1, "other", 72, 2, 3⟩ := by decide +kernel
  have htokens : TokensDiffer sampleSettings overtakenRun := by
    unfold TokensDiffer
    decide +kernel
  refine ⟨hfirst, hsecond, ?_⟩
  exact ((executions_are_exclusive sampleSettings overtakenRun htokens).2.1
    1 4 _ _ hfirst hsecond (by decide) rfl).imp And.right And.right

end JobQueue
