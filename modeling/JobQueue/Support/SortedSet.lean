import Mathlib.Data.List.Sort
import Mathlib.Data.Prod.Lex

/-!
# Sorted sets

A set of members, each with a score, kept in ascending order of score and, at
equal scores, of member.  Adding a member that is present moves it to its new
score.  Ranges are given by ranks, where negative ranks count from the end.
-/

namespace Support

/-- Members with scores, in order. -/
structure SortedSet (σ μ : Type*) [LinearOrder σ] [LinearOrder μ] where
  entries : List (σ × μ)
  sorted : entries.Pairwise fun x y => toLex x ≤ toLex y
  nodup : (entries.map Prod.snd).Nodup

namespace SortedSet

variable {σ μ : Type*} [LinearOrder σ] [LinearOrder μ]

def empty : SortedSet σ μ where
  entries := []
  sorted := List.Pairwise.nil
  nodup := List.nodup_nil

def members (z : SortedSet σ μ) : List μ := z.entries.map Prod.snd

def card (z : SortedSet σ μ) : ℕ := z.entries.length

def score? (z : SortedSet σ μ) (m : μ) : Option σ :=
  (z.entries.find? fun x => x.2 = m).map Prod.fst

def remove (z : SortedSet σ μ) (m : μ) : SortedSet σ μ where
  entries := z.entries.filter fun x => x.2 ≠ m
  sorted := z.sorted.filter _
  nodup := z.nodup.sublist (List.filter_sublist.map _)

/-- Put a member at a score, wherever it was before. -/
def add (z : SortedSet σ μ) (s : σ) (m : μ) : SortedSet σ μ where
  entries := (z.remove m).entries.orderedInsert
    (fun x y => toLex x ≤ toLex y) (s, m)
  sorted := by
    have : Std.Total fun x y : σ × μ => toLex x ≤ toLex y :=
      ⟨fun x y => le_total (toLex x) (toLex y)⟩
    have : IsTrans (σ × μ) fun x y => toLex x ≤ toLex y :=
      ⟨fun _ _ _ => le_trans⟩
    exact (z.remove m).sorted.orderedInsert (s, m) _
  nodup := by
    have hperm := (List.perm_orderedInsert
      (fun x y : σ × μ => toLex x ≤ toLex y) (s, m)
      (z.remove m).entries).map Prod.snd
    refine hperm.nodup_iff.mpr (List.nodup_cons.mpr ⟨?_, (z.remove m).nodup⟩)
    simp [remove]

/-- The rank a possibly negative index stands for. -/
def rank (n : ℕ) (i : ℤ) : ℤ := if i < 0 then i + n else i

/-- The members from rank `start` to rank `stop`, both included. -/
def range (z : SortedSet σ μ) (start stop : ℤ) : List μ :=
  let first := max 0 (rank z.card start)
  let last := rank z.card stop
  (z.members.drop first.toNat).take (last + 1 - first).toNat

theorem mem_members {z : SortedSet σ μ} {m : μ} :
    m ∈ z.members ↔ ∃ s, (s, m) ∈ z.entries := by
  simp [members]

theorem mem_remove {z : SortedSet σ μ} {m : μ} {x : σ × μ} :
    x ∈ (z.remove m).entries ↔ x ∈ z.entries ∧ x.2 ≠ m := by
  simp [remove]

theorem entries_remove_front {z : SortedSet σ μ} {x : σ × μ}
    {rest : List (σ × μ)} (h : z.entries = x :: rest) :
    (z.remove x.2).entries = rest := by
  have hnodup := z.nodup
  rw [h, List.map_cons, List.nodup_cons] at hnodup
  change z.entries.filter (fun y => y.2 ≠ x.2) = rest
  rw [h, List.filter_cons_of_neg (by simp)]
  apply List.filter_eq_self.mpr
  intro y hy
  have hne : y.2 ≠ x.2 := by
    intro heq
    exact hnodup.1 (heq ▸ List.mem_map_of_mem hy)
  simpa using hne

theorem mem_add {z : SortedSet σ μ} {s : σ} {m : μ} {x : σ × μ} :
    x ∈ (z.add s m).entries ↔ x = (s, m) ∨ x ∈ z.entries ∧ x.2 ≠ m := by
  simp only [add, List.mem_orderedInsert, mem_remove]

theorem score_unique {z : SortedSet σ μ} {s s' : σ} {m : μ}
    (h : (s, m) ∈ z.entries) (h' : (s', m) ∈ z.entries) : s = s' := by
  have heq := List.inj_on_of_nodup_map z.nodup h h' rfl
  exact congrArg Prod.fst heq

/-- Earlier entries have a smaller score, or the same score and a smaller
member. -/
theorem pairwise_lt (z : SortedSet σ μ) :
    z.entries.Pairwise fun x y => x.1 < y.1 ∨ x.1 = y.1 ∧ x.2 < y.2 := by
  have hne : z.entries.Pairwise fun x y => x.2 ≠ y.2 :=
    List.pairwise_map.mp z.nodup
  refine (z.sorted.and hne).imp ?_
  rintro x y ⟨hle, hne⟩
  rcases (Prod.Lex.le_iff (x := toLex x) (y := toLex y)).mp hle with
    hlt | ⟨heq, hle⟩
  · exact Or.inl hlt
  · exact Or.inr ⟨heq, lt_of_le_of_ne hle hne⟩

/-- The first `n` members. -/
theorem range_zero (z : SortedSet σ μ) {n : ℕ} (hn : 1 ≤ n) :
    z.range 0 ((n : ℤ) - 1) = z.members.take n := by
  have hlast : ¬ (n : ℤ) - 1 < 0 := by omega
  simp [range, rank, hlast]

end SortedSet

end Support
