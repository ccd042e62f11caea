import JobQueue.Support.Execution
import Mathlib.Algebra.BigOperators.Group.Finset.Piecewise
import Mathlib.Logic.Function.Basic

/-!
# Concurrent processes over a shared state

Any number of processes, each with a local state, take turns: one step lets one
process act on the shared state and on its own local state.  The rule at the
end proves a property of the shared state together with an assertion for every
process, when each action keeps the property, establishes the assertion of the
acting process anew, and does not disturb the assertions of the others.  What
the processes do is counted process by process through `turnsOf`.
-/

namespace Support

/-- Processes with local states `π` over a shared state `σ`. -/
structure Concurrent (σ π ι ω : Type*) where
  act : ℕ → σ → π → ι → σ × π × ω

/-- The shared state and the local state of every process. -/
structure Configuration (σ π : Type*) where
  shared : σ
  process : ℕ → π

namespace Concurrent

variable {σ π ι ω : Type*} (C : Concurrent σ π ι ω)

/-- The processes as one machine; an input names the process to act. -/
def machine : Machine (Configuration σ π) (ℕ × ι) ω where
  step c i :=
    let (s, p, o) := C.act i.1 c.shared (c.process i.1) i.2
    (⟨s, Function.update c.process i.1 p⟩, o)

/-- A property of history and shared state, and an assertion for every
process, are kept along every run if every action keeps them. -/
theorem run_invariant {G : List ((ℕ × ι) × ω) → σ → Prop}
    {L : List ((ℕ × ι) × ω) → σ → ℕ → π → Prop} {c : Configuration σ π}
    (hG : G [] c.shared) (hL : ∀ n, L [] c.shared n (c.process n))
    (hact : ∀ h s n p i, G h s → L h s n p →
      G (h ++ [((n, i), (C.act n s p i).2.2)]) (C.act n s p i).1 ∧
      L (h ++ [((n, i), (C.act n s p i).2.2)]) (C.act n s p i).1 n
        (C.act n s p i).2.1)
    (hother : ∀ h s n p i m q, G h s → L h s n p → m ≠ n → L h s m q →
      L (h ++ [((n, i), (C.act n s p i).2.2)]) (C.act n s p i).1 m q)
    (is : List (ℕ × ι)) :
    G (C.machine.trace c is) (C.machine.run c is).shared ∧
      ∀ n, L (C.machine.trace c is) (C.machine.run c is).shared n
        ((C.machine.run c is).process n) := by
  refine C.machine.trace_invariant
    (P := fun h c => G h c.shared ∧ ∀ n, L h c.shared n (c.process n))
    ⟨hG, hL⟩ ?_ is
  rintro h c ⟨n, i⟩ ⟨hg, hl⟩
  obtain ⟨hg', hl'⟩ := hact h c.shared n (c.process n) i hg (hl n)
  refine ⟨hg', fun m => ?_⟩
  by_cases hm : m = n
  · subst hm
    simpa [machine] using hl'
  · have hkeep := hother h c.shared n (c.process n) i m (c.process m) hg
      (hl n) hm (hl m)
    simpa [machine, Function.update_of_ne hm] using hkeep

theorem process_run_of_notMem {c : Configuration σ π} {is : List (ℕ × ι)}
    {n : ℕ} (h : n ∉ is.map Prod.fst) :
    (C.machine.run c is).process n = c.process n := by
  induction is generalizing c with
  | nil => rfl
  | cons i is ih =>
      rw [List.map_cons, List.mem_cons, not_or] at h
      rw [Machine.run_cons, ih h.2]
      exact Function.update_of_ne h.1 _ _

/-- What one process makes of the shared state when only it acts. -/
def alone (n : ℕ) (x : σ × π) (is : List ι) : σ × π :=
  is.foldl (fun x i => ((C.act n x.1 x.2 i).1, (C.act n x.1 x.2 i).2.1)) x

theorem alone_append (n : ℕ) (x : σ × π) (is js : List ι) :
    C.alone n x (is ++ js) = C.alone n (C.alone n x is) js :=
  List.foldl_append

/-- A run in which only one process acts. -/
theorem run_alone (c : Configuration σ π) (n : ℕ) (is : List ι) :
    ((C.machine.run c (is.map (Prod.mk n))).shared,
      (C.machine.run c (is.map (Prod.mk n))).process n) =
        C.alone n (c.shared, c.process n) is := by
  induction is generalizing c with
  | nil => rfl
  | cons i is ih =>
      rw [List.map_cons, Machine.run_cons, ih]
      simp [machine, alone]

end Concurrent

section Turns

variable {ι ω β : Type*}

/-- The part of a history in which one process acted. -/
def turnsOf (n : ℕ) (h : List ((ℕ × ι) × ω)) : List ((ℕ × ι) × ω) :=
  h.filter fun x => x.1.1 = n

theorem turnsOf_concat_self (n : ℕ) (h : List ((ℕ × ι) × ω)) (i : ι)
    (o : ω) : turnsOf n (h ++ [((n, i), o)]) = turnsOf n h ++ [((n, i), o)] := by
  simp [turnsOf]

theorem turnsOf_concat_other {n m : ℕ} (hne : m ≠ n)
    (h : List ((ℕ × ι) × ω)) (i : ι) (o : ω) :
    turnsOf m (h ++ [((n, i), o)]) = turnsOf m h := by
  simp [turnsOf, hne.symm]

/-- What a history yields is what its processes yield together. -/
theorem count_flatMap_turnsOf [DecidableEq β] (f : (ℕ × ι) × ω → List β)
    (b : β) (h : List ((ℕ × ι) × ω)) {S : Finset ℕ}
    (hS : ∀ x ∈ h, x.1.1 ∈ S) :
    (h.flatMap f).count b =
      ∑ n ∈ S, ((turnsOf n h).flatMap f).count b := by
  induction h with
  | nil => simp [turnsOf]
  | cons x h ih =>
      have hx : x.1.1 ∈ S := hS x (by simp)
      have hturn : ∀ n, ((turnsOf n (x :: h)).flatMap f).count b =
          (if x.1.1 = n then (f x).count b else 0) +
            ((turnsOf n h).flatMap f).count b := by
        intro n
        by_cases hn : x.1.1 = n
        · simp [turnsOf, hn, List.count_append]
        · simp [turnsOf, hn]
      rw [List.flatMap_cons, List.count_append,
        ih fun y hy => hS y (by simp [hy])]
      simp only [hturn, Finset.sum_add_distrib]
      rw [Finset.sum_ite_eq S x.1.1, if_pos hx]

end Turns

end Support
