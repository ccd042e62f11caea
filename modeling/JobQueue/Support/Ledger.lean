import JobQueue.Support.KeyedTable
import Mathlib.Algebra.BigOperators.Group.Finset.Piecewise
import Mathlib.Algebra.BigOperators.Group.List.Lemmas
import Mathlib.Data.Nat.Cast.Basic

/-!
# Totals of keyed tables

Every row carries a weight, and the weights of all rows add up to a total.  A
ledger books amounts under keys.  If the amounts booked under each key say how
the weight under that key has changed, the amounts of the whole ledger say how
the total has changed.
-/

namespace Support

namespace KeyedTable

variable {κ ρ M : Type*} {key : ρ → κ} [AddCommMonoid M]

def total (t : KeyedTable key) (w : ρ → M) : M := (t.rows.map w).sum

@[simp] theorem total_empty (w : ρ → M) :
    (empty : KeyedTable key).total w = 0 := rfl

theorem total_ite {N : Type*} [AddCommMonoidWithOne N] (t : KeyedTable key)
    (p : ρ → Bool) :
    t.total (fun r => if p r then (1 : N) else 0) =
      ((t.select p).length : N) := by
  rw [total, select, ← List.countP_eq_length_filter]
  induction t.rows with
  | nil => simp
  | cons r rows ih =>
      rw [List.map_cons, List.sum_cons, ih, List.countP_cons, Nat.cast_add,
        add_comm]
      congr 1
      by_cases h : p r
      · simp [h]
      · simp [h]

section Find

variable [DecidableEq κ]

def weightAt (t : KeyedTable key) (w : ρ → M) (k : κ) : M :=
  (t.find? k).elim 0 w

theorem weightAt_of_notMem {t : KeyedTable key} {k : κ}
    (h : k ∉ t.rows.map key) (w : ρ → M) : t.weightAt w k = 0 := by
  have hnone : t.find? k = none := by
    apply List.find?_eq_none.mpr
    intro r hr
    rw [decide_eq_true_eq]
    rintro rfl
    exact h (List.mem_map_of_mem hr)
  rw [weightAt, hnone, Option.elim_none]

/-- The total is the sum of the weights under any keys that cover the
table. -/
theorem total_eq_sum (t : KeyedTable key) (w : ρ → M) {S : Finset κ}
    (hS : ∀ k ∈ t.rows.map key, k ∈ S) :
    t.total w = ∑ k ∈ S, t.weightAt w k := by
  have hsub : (t.rows.map key).toFinset ⊆ S := fun k hk =>
    hS k (List.mem_toFinset.mp hk)
  rw [← Finset.sum_subset hsub fun k _ hk => weightAt_of_notMem
    (fun hmem => hk (List.mem_toFinset.mpr hmem)) w]
  rw [List.sum_toFinset _ t.nodup, List.map_map, total]
  congr 1
  apply List.map_congr_left
  intro r hr
  rw [Function.comp_apply, weightAt, find?_of_mem hr, Option.elim_some]

def bookedFor (k : κ) (entries : List (κ × M)) : M :=
  ((entries.filter fun x => x.1 = k).map Prod.snd).sum

theorem bookedFor_cons (k : κ) (x : κ × M) (entries : List (κ × M)) :
    bookedFor k (x :: entries) =
      (if x.1 = k then x.2 else 0) + bookedFor k entries := by
  by_cases h : x.1 = k
  · simp [bookedFor, h]
  · simp [bookedFor, h]

theorem sum_bookedFor {entries : List (κ × M)} {S : Finset κ}
    (hS : ∀ x ∈ entries, x.1 ∈ S) :
    ∑ k ∈ S, bookedFor k entries = (entries.map Prod.snd).sum := by
  induction entries with
  | nil => simp [bookedFor]
  | cons x entries ih =>
      simp only [bookedFor_cons, Finset.sum_add_distrib]
      rw [ih fun y hy => hS y (List.mem_cons_of_mem x hy),
        Finset.sum_ite_eq S x.1, if_pos (hS x List.mem_cons_self),
        List.map_cons, List.sum_cons]

/-- A ledger that accounts for every key accounts for the total. -/
theorem total_eq_of_booked {t t' : KeyedTable key} {w : ρ → M}
    {entries : List (κ × M)}
    (h : ∀ k, t'.weightAt w k = t.weightAt w k + bookedFor k entries) :
    t'.total w = t.total w + (entries.map Prod.snd).sum := by
  have hcover : ∀ k ∈ t.rows.map key ++ (t'.rows.map key ++
      entries.map Prod.fst), k ∈ (t.rows.map key ++ (t'.rows.map key ++
      entries.map Prod.fst)).toFinset := fun k hk => List.mem_toFinset.mpr hk
  rw [total_eq_sum t' w fun k hk => hcover k
      (List.mem_append_right _ (List.mem_append_left _ hk)),
    total_eq_sum t w fun k hk => hcover k (List.mem_append_left _ hk),
    ← sum_bookedFor fun x hx => hcover x.1 (List.mem_append_right _
      (List.mem_append_right _ (List.mem_map_of_mem hx))),
    ← Finset.sum_add_distrib]
  exact Finset.sum_congr rfl fun k _ => h k

end Find

end KeyedTable

end Support
