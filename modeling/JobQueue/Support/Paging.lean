import JobQueue.Support.KeyedTable
import Mathlib.Data.List.Count
import Mathlib.Data.List.Nodup
import Mathlib.Data.List.Range

/-!
# Paging through a table that grows

A page is a window of the selected rows in descending order.  The place of a
row is its rank, the number of selected rows before it; while rows are only
added, the rank of a row can only grow.  A reader that takes page after page of
the same length therefore never steps over a row it has not seen.
-/

namespace Support
namespace KeyedTable

variable {κ ρ β : Type*} {key : ρ → κ}

/-! ## Tables that grow -/

/-- The selected rows of `t` are still there in `t'`, at the same place. -/
def Keeps (p : ρ → Bool) (place : ρ → β) (t t' : KeyedTable key) : Prop :=
  ∀ r ∈ t.select p, ∃ s ∈ t'.select p, key s = key r ∧ place s = place r

variable {t t' : KeyedTable key} {p : ρ → Bool} {place : ρ → β}

theorem Keeps.refl (t : KeyedTable key) : Keeps p place t t :=
  fun r hr => ⟨r, hr, rfl, rfl⟩

theorem Keeps.trans {t'' : KeyedTable key} (h : Keeps p place t t')
    (h' : Keeps p place t' t'') : Keeps p place t t'' := by
  intro r hr
  obtain ⟨s, hs, hkey, hplace⟩ := h r hr
  obtain ⟨u, hu, hkey', hplace'⟩ := h' s hs
  exact ⟨u, hu, hkey'.trans hkey, hplace'.trans hplace⟩

theorem Keeps.countP_le (h : Keeps p place t t') {q : β → Bool} :
    (t.select p).countP (fun r => q (place r)) ≤
      (t'.select p).countP fun r => q (place r) := by
  rw [List.countP_eq_length_filter, List.countP_eq_length_filter,
    ← List.length_map key, ← List.length_map key]
  have hnodup : (((t.select p).filter fun r => q (place r)).map key).Nodup :=
    (t.nodup_select p).sublist (List.filter_sublist.map key)
  refine (List.subperm_of_subset hnodup ?_).length_le
  intro k hk
  obtain ⟨r, hr, rfl⟩ := List.mem_map.mp hk
  obtain ⟨hmem, hq⟩ := List.mem_filter.mp hr
  obtain ⟨s, hs, hkey, hplace⟩ := h r hmem
  rw [← hkey]
  refine List.mem_map_of_mem (List.mem_filter.mpr ⟨hs, ?_⟩)
  rw [hplace]
  exact hq

/-- If no selected row is new, the rows are the same. -/
theorem Keeps.symm_of_old (h : Keeps p place t t')
    (hold : ∀ s ∈ t'.select p, ∃ r ∈ t.select p, key r = key s) :
    Keeps p place t' t := by
  intro s hs
  obtain ⟨r, hr, hkey⟩ := hold s hs
  obtain ⟨s', hs', hkey', hplace⟩ := h r hr
  obtain rfl := List.inj_on_of_nodup_map (t'.nodup_select p) hs' hs
    (hkey'.trans hkey)
  exact ⟨r, hr, hkey, hplace.symm⟩

theorem Keeps.length_le (h : Keeps p place t t') :
    (t.select p).length ≤ (t'.select p).length := by
  have hle := h.countP_le (q := fun _ => true)
  simpa using hle

theorem keeps_of_le {T : ℕ → KeyedTable key}
    (hkeeps : ∀ k, Keeps p place (T k) (T (k + 1))) {i j : ℕ} (hij : i ≤ j) :
    Keeps p place (T i) (T j) := by
  induction j, hij using Nat.le_induction with
  | base => exact .refl _
  | succ j _ ih => exact ih.trans (hkeeps j)

/-! ## Pages -/

variable [LinearOrder β]

/-- `SELECT .. WHERE p ORDER BY place DESC LIMIT limit OFFSET offset`. -/
def page (t : KeyedTable key) (p : ρ → Bool) (place : ρ → β)
    (limit offset : ℕ) : List ρ :=
  (((t.select p).insertionSort fun r s => place s ≤ place r).drop
    offset).take limit

/-- How many of the selected rows come before the place `b`. -/
def rank (t : KeyedTable key) (p : ρ → Bool) (place : ρ → β) (b : β) : ℕ :=
  (t.select p).countP fun s => b < place s

/-- Rows with different keys have different places, so the order is
strict. -/
theorem pairwise_sort (hplace : ∀ r s, place r = place s → key r = key s) :
    ((t.select p).insertionSort fun r s => place s ≤ place r).Pairwise
      fun r s => place s < place r := by
  have hle := List.pairwise_insertionSort
    (fun r s : ρ => place s ≤ place r) (t.select p)
  have hkeys : (((t.select p).insertionSort
      fun r s => place s ≤ place r).map key).Nodup :=
    ((List.perm_insertionSort _ _).map key).nodup_iff.mpr (t.nodup_select p)
  have hne := List.pairwise_map.mp hkeys
  refine (hle.and hne).imp ?_
  rintro r s ⟨hrs, hkey⟩
  exact lt_of_le_of_ne hrs fun heq => hkey (hplace r s heq.symm)

/-- A row stands at the index given by its rank. -/
theorem getElem?_rank (hplace : ∀ r s, place r = place s → key r = key s)
    {r : ρ} (hr : r ∈ t.select p) :
    ((t.select p).insertionSort fun r s => place s ≤ place r)[
      t.rank p place (place r)]? = some r := by
  have hsorted := pairwise_sort (t := t) (p := p) hplace
  have hrank : t.rank p place (place r) =
      ((t.select p).insertionSort fun r s => place s ≤ place r).countP
        fun s => place r < place s :=
    ((List.perm_insertionSort _ _).countP_eq _).symm
  rw [hrank]
  obtain ⟨before, after, hsplit⟩ := List.append_of_mem
    ((List.mem_insertionSort fun r s => place s ≤ place r).mpr hr)
  rw [hsplit] at hsorted ⊢
  obtain ⟨-, hafter, hcross⟩ := List.pairwise_append.mp hsorted
  have hbefore : before.countP (fun s => place r < place s) =
      before.length := by
    rw [List.countP_eq_length]
    intro s hs
    exact decide_eq_true (hcross s hs r List.mem_cons_self)
  have hrest : (r :: after).countP (fun s => place r < place s) = 0 := by
    rw [List.countP_eq_zero]
    intro s hs
    rcases List.mem_cons.mp hs with rfl | hs
    · simp
    · have hlt := List.rel_of_pairwise_cons hafter hs
      simp [hlt.le]
  rw [List.countP_append, hbefore, hrest, Nat.add_zero,
    List.getElem?_append_right (Nat.le_refl _), Nat.sub_self]
  rfl

theorem rank_lt {r : ρ} (hr : r ∈ t.select p) :
    t.rank p place (place r) < (t.select p).length := by
  refine List.countP_lt_length_iff.mpr ⟨r, hr, ?_⟩
  simp

/-- A page holds the rows whose rank falls into its window. -/
theorem mem_page_iff (hplace : ∀ r s, place r = place s → key r = key s)
    {limit offset : ℕ} {r : ρ} :
    r ∈ t.page p place limit offset ↔
      r ∈ t.select p ∧ offset ≤ t.rank p place (place r) ∧
        t.rank p place (place r) < offset + limit := by
  have hindex : ∀ r ∈ t.select p, ∀ i,
      ((t.select p).insertionSort fun r s => place s ≤ place r)[i]? =
        some r ↔ i = t.rank p place (place r) := by
    intro r hr i
    have hrank := getElem?_rank hplace hr
    have hnodup : ((t.select p).insertionSort
        fun r s => place s ≤ place r).Nodup :=
      (pairwise_sort hplace).imp fun h => ne_of_apply_ne place h.ne'
    obtain ⟨hlt, -⟩ := List.getElem?_eq_some_iff.mp hrank
    have hinj := List.getElem?_inj (j := i) hlt hnodup
    rw [hrank] at hinj
    rw [eq_comm, hinj, eq_comm]
  rw [page, List.mem_iff_getElem?]
  constructor
  · rintro ⟨i, hi⟩
    rw [List.getElem?_take] at hi
    split at hi
    · next hlt =>
        rw [List.getElem?_drop] at hi
        have hr : r ∈ t.select p := (List.mem_insertionSort _).mp
          (List.mem_of_getElem? hi)
        have heq := (hindex r hr _).mp hi
        exact ⟨hr, by omega, by omega⟩
    · cases hi
  · rintro ⟨hr, hle, hlt⟩
    refine ⟨t.rank p place (place r) - offset, ?_⟩
    rw [List.getElem?_take_of_lt (by omega), List.getElem?_drop,
      Nat.add_sub_cancel' hle]
    exact (hindex r hr _).mpr rfl

theorem pairwise_page (hplace : ∀ r s, place r = place s → key r = key s)
    (limit offset : ℕ) :
    (t.page p place limit offset).Pairwise fun r s => place s < place r :=
  (pairwise_sort hplace).sublist
    ((List.take_sublist _ _).trans (List.drop_sublist _ _))

theorem length_page (limit offset : ℕ) :
    (t.page p place limit offset).length =
      min limit ((t.select p).length - offset) := by
  rw [page, List.length_take, List.length_drop, List.length_insertionSort]

/-- The further ahead a place is, the fewer rows come before it. -/
theorem rank_anti {b c : β} (h : b ≤ c) :
    t.rank p place c ≤ t.rank p place b := by
  refine List.countP_mono_left fun s _ hs => ?_
  simp only [decide_eq_true_eq] at hs ⊢
  exact h.trans_lt hs

theorem Keeps.rank_le (h : Keeps p place t t') (b : β) :
    t.rank p place b ≤ t'.rank p place b :=
  h.countP_le (q := fun c => b < c)

/-! ## Page after page -/

section Walk

variable {T : ℕ → KeyedTable key} {p : ρ → Bool} {place : ρ → β}
  (hkeeps : ∀ k, Keeps p place (T k) (T (k + 1)))
include hkeeps

/-- A row that no page showed so far is still ahead of the reader. -/
theorem ahead_of_unseen (hplace : ∀ r s, place r = place s → key r = key s)
    {limit m : ℕ} {r : ρ} (hr : r ∈ (T 0).select p)
    (hunseen : ∀ k < m, ∀ s ∈ (T k).page p place limit (k * limit),
      key s ≠ key r) :
    m * limit ≤ (T m).rank p place (place r) := by
  induction m with
  | zero => simp
  | succ m ih =>
      have hle := ih fun k hk => hunseen k (by omega)
      obtain ⟨s, hs, hkey, hsame⟩ := keeps_of_le hkeeps (Nat.zero_le m) r hr
      have hnot := mt (mem_page_iff hplace).mpr
        fun hmem => hunseen m (Nat.lt_succ_self m) s hmem hkey
      rw [hsame] at hnot
      have hahead : m * limit + limit ≤ (T m).rank p place (place r) := by
        by_contra hlt
        exact hnot ⟨hs, hle, not_le.mp hlt⟩
      rw [Nat.succ_mul]
      exact hahead.trans ((hkeeps m).rank_le _)

/-- When a page is short, every row of the first table has been shown. -/
theorem seen_of_short (hplace : ∀ r s, place r = place s → key r = key s)
    {limit m : ℕ}
    (hshort : ((T m).page p place limit (m * limit)).length < limit) {r : ρ}
    (hr : r ∈ (T 0).select p) :
    ∃ k ≤ m, ∃ s ∈ (T k).page p place limit (k * limit), key s = key r := by
  by_contra hnone
  have hahead := ahead_of_unseen hkeeps hplace (m := m) hr
    fun k hk s hs hkey => hnone ⟨k, hk.le, s, hs, hkey⟩
  obtain ⟨s, hs, hkey, hsame⟩ := keeps_of_le hkeeps (Nat.zero_le m) r hr
  have hlt : (T m).rank p place (place s) < ((T m).select p).length :=
    rank_lt hs
  rw [length_page] at hshort
  refine hnone ⟨m, le_rfl, s, (mem_page_iff hplace).mpr ⟨hs, ?_, ?_⟩, hkey⟩
  · rw [hsame]
    exact hahead
  · omega

theorem mul_le_of_full {limit m : ℕ} (hlimit : 0 < limit)
    (hfull : ∀ k < m,
      ((T k).page p place limit (k * limit)).length = limit) :
    m * limit ≤ ((T m).select p).length := by
  cases m with
  | zero => simp
  | succ m =>
      have hlast := hfull m (Nat.lt_succ_self m)
      rw [length_page] at hlast
      have hle := (hkeeps m).length_le
      rw [Nat.succ_mul]
      omega

/-- While the selected rows stay within bounds, some page is short. -/
theorem exists_short {limit n : ℕ} (hlimit : 0 < limit)
    (hbound : ∀ k, ((T k).select p).length ≤ n) :
    ∃ m, m * limit ≤ n ∧
      ((T m).page p place limit (m * limit)).length < limit ∧
      ∀ k < m, ((T k).page p place limit (k * limit)).length = limit := by
  have hle : ∀ k, ((T k).page p place limit (k * limit)).length ≤ limit := by
    intro k
    rw [length_page]
    exact Nat.min_le_left _ _
  have hex : ∃ m,
      ((T m).page p place limit (m * limit)).length < limit := by
    by_contra hnone
    have hfull : ∀ k < n + 1,
        ((T k).page p place limit (k * limit)).length = limit :=
      fun k _ => (hle k).antisymm (not_lt.mp fun h => hnone ⟨k, h⟩)
    have hmul := mul_le_of_full hkeeps hlimit hfull
    have hn := Nat.le_mul_of_pos_right (n + 1) hlimit
    have hle := hbound (n + 1)
    omega
  have hfull : ∀ k < Nat.find hex,
      ((T k).page p place limit (k * limit)).length = limit :=
    fun k hk => (hle k).antisymm (not_lt.mp (Nat.find_min hex hk))
  exact ⟨Nat.find hex, (mul_le_of_full hkeeps hlimit hfull).trans (hbound _),
    Nat.find_spec hex, hfull⟩

/-- As long as no selected row is new, ranks stay as they were. -/
theorem rank_eq {m k : ℕ} (hk : k ≤ m)
    (hold : ∀ s ∈ (T m).select p, ∃ r ∈ (T 0).select p, key r = key s)
    (b : β) : (T k).rank p place b = (T 0).rank p place b := by
  have hback := (keeps_of_le hkeeps (Nat.zero_le m)).symm_of_old hold
  exact (((keeps_of_le hkeeps hk).trans hback).rank_le b).antisymm
    ((keeps_of_le hkeeps (Nat.zero_le k)).rank_le b)

/-- As long as no selected row is new, the pages follow each other in strictly
descending order. -/
theorem pairwise_pages (hplace : ∀ r s, place r = place s → key r = key s)
    (limit : ℕ) {m : ℕ}
    (hold : ∀ s ∈ (T m).select p, ∃ r ∈ (T 0).select p, key r = key s) :
    ((List.range (m + 1)).flatMap fun k =>
      (T k).page p place limit (k * limit)).Pairwise
        fun r s => place s < place r := by
  rw [List.pairwise_flatMap]
  refine ⟨fun k _ => pairwise_page hplace _ _, ?_⟩
  refine List.pairwise_lt_range.imp_of_mem ?_
  intro i j hi hj hij r hr s hs
  rw [List.mem_range] at hi hj
  obtain ⟨-, -, hrlt⟩ := (mem_page_iff hplace).mp hr
  obtain ⟨-, hsle, -⟩ := (mem_page_iff hplace).mp hs
  rw [rank_eq hkeeps (Nat.le_of_lt_succ hi) hold] at hrlt
  rw [rank_eq hkeeps (Nat.le_of_lt_succ hj) hold] at hsle
  by_contra hnot
  have hanti : (T 0).rank p place (place s) ≤
      (T 0).rank p place (place r) := rank_anti (not_lt.mp hnot)
  have hmul : (i + 1) * limit ≤ j * limit := Nat.mul_le_mul_right _ hij
  rw [Nat.succ_mul] at hmul
  omega

/-- As long as no selected row is new, the pages up to a short one show the
rows of the first table. -/
theorem mem_pages_iff (hplace : ∀ r s, place r = place s → key r = key s)
    {limit m : ℕ}
    (hshort : ((T m).page p place limit (m * limit)).length < limit)
    (hold : ∀ s ∈ (T m).select p, ∃ r ∈ (T 0).select p, key r = key s)
    (x : κ) :
    x ∈ ((List.range (m + 1)).flatMap fun k =>
        (T k).page p place limit (k * limit)).map key ↔
      ∃ r ∈ (T 0).select p, key r = x := by
  simp only [List.mem_map, List.mem_flatMap, List.mem_range]
  constructor
  · rintro ⟨s, ⟨k, hk, hs⟩, rfl⟩
    obtain ⟨u, hu, hkey, -⟩ := keeps_of_le hkeeps (Nat.le_of_lt_succ hk) s
      ((mem_page_iff hplace).mp hs).1
    rw [← hkey]
    exact hold u hu
  · rintro ⟨r, hr, rfl⟩
    obtain ⟨k, hk, s, hs, hkey⟩ := seen_of_short hkeeps hplace hshort hr
    exact ⟨s, ⟨k, Nat.lt_succ_of_le hk, hs⟩, hkey⟩

end Walk

end KeyedTable
end Support
