import JobQueue.Support.Execution
import Mathlib.Algebra.BigOperators.Group.List.Basic
import Mathlib.Algebra.GroupWithZero.Nat
import Mathlib.Data.List.Range
import Mathlib.Order.WellFounded

/-!
# Potentials

A potential bounds how often something can happen: it drops with every
occurrence and rises only by what the answers grant.  A run then has at most as
many occurrences as its potential and its grants pay for.  An endless input
without grants leads to a state from which nothing of the kind happens any
more.
-/

namespace Support

/-- Finitely many properties that hold from some time on hold together from
some time on. -/
theorem exists_common_bound {α : Type*} {P : α → ℕ → Prop} {xs : List α}
    (h : ∀ x ∈ xs, ∃ N, ∀ n ≥ N, P x n) :
    ∃ N, ∀ x ∈ xs, ∀ n ≥ N, P x n := by
  induction xs with
  | nil => exact ⟨0, fun x hx => (List.not_mem_nil hx).elim⟩
  | cons x xs ih =>
      obtain ⟨N, hN⟩ := h x List.mem_cons_self
      obtain ⟨M, hM⟩ := ih fun y hy => h y (List.mem_cons_of_mem x hy)
      refine ⟨max N M, fun y hy n hn => ?_⟩
      rcases List.mem_cons.mp hy with rfl | hmem
      · exact hN n (le_trans (le_max_left N M) hn)
      · exact hM y hmem n (le_trans (le_max_right N M) hn)

namespace Machine

variable {σ ι ω : Type*} (M : Machine σ ι ω)

/-- How many inputs of a run are occurrences of an event. -/
def occurrences (event : σ → ι → Bool) : σ → List ι → ℕ
  | _, [] => 0
  | s, i :: is => (event s i).toNat + occurrences event (M.step s i).1 is

/-- The states on an endless input. -/
def stateAt (s : σ) (input : ℕ → ι) : ℕ → σ
  | 0 => s
  | n + 1 => (M.step (stateAt s input n) (input n)).1

theorem stateAt_invariant {I : σ → Prop}
    (hI : ∀ s i, I s → I (M.step s i).1) {s : σ} (hs : I s)
    (input : ℕ → ι) (n : ℕ) : I (M.stateAt s input n) := by
  induction n with
  | zero => exact hs
  | succ n ih => exact hI _ _ ih

/-- The potential drops with every occurrence and rises by no more than what
is granted, in every state that satisfies the invariant. -/
structure Potential (I : σ → Prop) (Φ : σ → ℕ) (event : σ → ι → Bool)
    (grant : ι × ω → ℕ) : Prop where
  keep : ∀ s i, I s → I (M.step s i).1
  pay : ∀ s i, I s → Φ (M.step s i).1 + (event s i).toNat ≤
    Φ s + grant (i, (M.step s i).2)

namespace Potential

variable {M} {I : σ → Prop} {Φ : σ → ℕ} {event : σ → ι → Bool}
  {grant : ι × ω → ℕ}

/-- A run pays for its occurrences. -/
theorem occurrences_le (h : M.Potential I Φ event grant) {s : σ} (hs : I s)
    (is : List ι) :
    Φ (M.run s is) + M.occurrences event s is ≤
      Φ s + ((M.trace s is).map grant).sum := by
  induction is generalizing s with
  | nil => exact Nat.le_refl _
  | cons i is ih =>
      have hpay := h.pay s i hs
      have hrest := ih (h.keep s i hs)
      rw [run_cons, occurrences, trace_cons, List.map_cons, List.sum_cons]
      omega

/-- On an endless input without grants the occurrences come to an end. -/
theorem eventually_silent (h : M.Potential I Φ event grant) {s : σ} (hs : I s)
    {input : ℕ → ι}
    (hgrant : ∀ n, grant (input n, (M.step (M.stateAt s input n)
      (input n)).2) = 0) :
    ∃ N, ∀ n ≥ N, event (M.stateAt s input n) (input n) = false := by
  let level (n : ℕ) : ℕ := Φ (M.stateAt s input n)
  have hpay : ∀ n, level (n + 1) +
      (event (M.stateAt s input n) (input n)).toNat ≤ level n := by
    intro n
    have hstep := h.pay _ (input n) (M.stateAt_invariant h.keep hs input n)
    rw [hgrant n, Nat.add_zero] at hstep
    exact hstep
  have hanti : Antitone level :=
    antitone_nat_of_succ_le fun n => (Nat.le_add_right _ _).trans (hpay n)
  -- From the least level on, no step can drop.
  obtain ⟨N, hN⟩ : ∃ N, ∀ n, level N ≤ level n :=
    ⟨Function.argmin level, fun n => Function.argmin_le level n⟩
  refine ⟨N, fun n hn => ?_⟩
  have hstep := hpay n
  have hleast := hN (n + 1)
  have hmost := hanti hn
  cases hevent : event (M.stateAt s input n) (input n) with
  | false => rfl
  | true =>
      rw [hevent, Bool.toNat_true] at hstep
      omega

end Potential

end Machine

end Support
