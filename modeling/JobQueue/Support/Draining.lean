import JobQueue.Support.KeyedTable
import Mathlib.Data.Finset.Card
import Mathlib.Order.Basic

/-!
# Draining a set in ordered batches

A batch of a finite set is a bounded number of elements, as many as there are,
none of which comes after an element that is left behind.  Taking batches one
after another empties the set in the given order, every element exactly once.
The rule at the end applies this to the rows of a table that a sequence of
updates picks out with an ordered, limited selection; rows that tie may come in
any order, and in a different one each time.
-/

namespace Support

/-! ## Batches of a set -/

section Batches

variable {α : Type*} [DecidableEq α]

/-- `picked` are the first elements of `s`, at most `limit` of them. -/
structure IsBatch (le : α → α → Prop) (limit : ℕ) (s picked : Finset α) :
    Prop where
  subset : picked ⊆ s
  card : picked.card = min limit s.card
  le_left : ∀ x ∈ picked, ∀ y ∈ s, y ∉ picked → le x y

/-- Batch after batch is taken out of `left 0`. -/
structure Drains (le : α → α → Prop) (limit : ℕ)
    (left picked : ℕ → Finset α) : Prop where
  batch : ∀ k, IsBatch le limit (left k) (picked k)
  left_succ : ∀ k, left (k + 1) = left k \ picked k

namespace Drains

variable {le : α → α → Prop} {limit : ℕ} {left picked : ℕ → Finset α}

theorem card_left (h : Drains le limit left picked) (k : ℕ) :
    (left k).card = (left 0).card - k * limit := by
  induction k with
  | zero => simp
  | succ k ih =>
      rw [h.left_succ, Finset.card_sdiff_of_subset (h.batch k).subset,
        (h.batch k).card, ih, Nat.succ_mul]
      omega

theorem card_picked (h : Drains le limit left picked) (k : ℕ) :
    (picked k).card = min limit ((left 0).card - k * limit) := by
  rw [(h.batch k).card, h.card_left]

theorem left_anti (h : Drains le limit left picked) {i j : ℕ} (hij : i ≤ j) :
    left j ⊆ left i := by
  induction j, hij using Nat.le_induction with
  | base => exact Finset.Subset.refl _
  | succ j _ ih =>
      rw [h.left_succ]
      exact Finset.sdiff_subset.trans ih

theorem mem_zero (h : Drains le limit left picked) {k : ℕ} {x : α}
    (hx : x ∈ picked k) : x ∈ left 0 :=
  h.left_anti (Nat.zero_le k) ((h.batch k).subset hx)

theorem not_mem_left (h : Drains le limit left picked) {i j : ℕ} {x : α}
    (hx : x ∈ picked i) (hij : i < j) : x ∉ left j := by
  intro hleft
  have hsucc := h.left_anti hij hleft
  rw [h.left_succ] at hsucc
  exact (Finset.mem_sdiff.mp hsucc).2 hx

theorem mem_left (h : Drains le limit left picked) {k : ℕ} {x : α}
    (hx : x ∈ left 0) (hnot : ∀ i < k, x ∉ picked i) : x ∈ left k := by
  induction k with
  | zero => exact hx
  | succ k ih =>
      rw [h.left_succ, Finset.mem_sdiff]
      exact ⟨ih fun i hi => hnot i (by omega), hnot k (by omega)⟩

theorem eq_of_picked (h : Drains le limit left picked) {i j : ℕ} {x : α}
    (hi : x ∈ picked i) (hj : x ∈ picked j) : i = j := by
  rcases lt_trichotomy i j with hij | hij | hij
  · exact absurd ((h.batch j).subset hj) (h.not_mem_left hi hij)
  · exact hij
  · exact absurd ((h.batch i).subset hi) (h.not_mem_left hj hij)

/-- Every element is taken by exactly one batch. -/
theorem existsUnique_picked (h : Drains le limit left picked)
    (hlimit : 0 < limit) {x : α} (hx : x ∈ left 0) :
    ∃! k, x ∈ picked k := by
  have hex : ∃ k, x ∈ picked k := by
    by_contra hnone
    have hleft := h.mem_left (k := (left 0).card) hx
      fun i _ hi => hnone ⟨i, hi⟩
    have hempty : (left (left 0).card).card = 0 := by
      rw [h.card_left]
      exact Nat.sub_eq_zero_of_le (Nat.le_mul_of_pos_right _ hlimit)
    rw [Finset.card_eq_zero.mp hempty] at hleft
    exact Finset.notMem_empty x hleft
  obtain ⟨k, hk⟩ := hex
  exact ⟨k, hk, fun j hj => h.eq_of_picked hj hk⟩

theorem le_of_lt (h : Drains le limit left picked) {i j : ℕ} (hij : i < j)
    {x y : α} (hx : x ∈ picked i) (hy : y ∈ picked j) : le x y := by
  have hy' := (h.batch j).subset hy
  refine (h.batch i).le_left x hx y (h.left_anti hij.le hy') ?_
  intro hyi
  exact hij.ne (h.eq_of_picked hyi hy)

end Drains
end Batches

/-! ## Ordered selections -/

/-- A way to put rows in order; rows that tie may come in any order. -/
structure Sorting {ρ : Type*} (le : ρ → ρ → Prop) where
  sort : List ρ → List ρ
  perm : ∀ l, (sort l).Perm l
  pairwise : ∀ l, (sort l).Pairwise le

/-- Rows that tie keep the order they were in. -/
def Sorting.stable {ρ : Type*} (le : ρ → ρ → Prop) [DecidableRel le]
    [Std.Total le] [IsTrans ρ le] : Sorting le where
  sort := List.insertionSort le
  perm := List.perm_insertionSort le
  pairwise := List.pairwise_insertionSort le

namespace KeyedTable

variable {κ ρ : Type*} {key : ρ → κ} {le : ρ → ρ → Prop}

/-- The first `limit` rows that satisfy `p`, in the order of `σ`. -/
def pick (t : KeyedTable key) (p : ρ → Bool) (σ : Sorting le) (limit : ℕ) :
    List ρ :=
  (σ.sort (t.select p)).take limit

section Pick

variable {t : KeyedTable key} {p : ρ → Bool} {σ : Sorting le} {limit : ℕ}

theorem mem_of_mem_pick {r : ρ} (h : r ∈ t.pick p σ limit) :
    r ∈ t.select p :=
  (σ.perm _).mem_iff.mp (List.mem_of_mem_take h)

theorem nodup_pick : ((t.pick p σ limit).map key).Nodup := by
  have hsort : ((σ.sort (t.select p)).map key).Nodup :=
    ((σ.perm _).map key).nodup_iff.mpr (t.nodup_select p)
  exact hsort.sublist ((List.take_sublist _ _).map key)

theorem length_pick :
    (t.pick p σ limit).length = min limit (t.select p).length := by
  rw [pick, List.length_take, (σ.perm _).length_eq]

/-- A row that is left behind comes after the rows that are picked. -/
theorem le_of_not_mem_pick {r s : ρ} (hr : r ∈ t.pick p σ limit)
    (hs : s ∈ t.select p) (hnot : s ∉ t.pick p σ limit) : le r s := by
  have hsorted := σ.pairwise (t.select p)
  have hmem : s ∈ σ.sort (t.select p) := (σ.perm _).mem_iff.mpr hs
  rw [← List.take_append_drop limit (σ.sort (t.select p))] at hsorted hmem
  rcases List.mem_append.mp hmem with htake | hdrop
  · exact absurd htake hnot
  · exact (List.pairwise_append.mp hsorted).2.2 r hr s hdrop

end Pick

/-! ## Sequences of sweeps -/

variable [DecidableEq κ]

def keysWhere (t : KeyedTable key) (p : ρ → Bool) : Finset κ :=
  ((t.select p).map key).toFinset

theorem mem_keysWhere {t : KeyedTable key} {p : ρ → Bool} {k : κ} :
    k ∈ t.keysWhere p ↔ ∃ r, t.find? k = some r ∧ p r = true := by
  simp only [keysWhere, List.mem_toFinset, List.mem_map, mem_select,
    find?_eq_some_iff]
  constructor
  · rintro ⟨r, ⟨hr, hp⟩, hk⟩
    exact ⟨r, ⟨hr, hk⟩, hp⟩
  · rintro ⟨r, ⟨hr, hk⟩, hp⟩
    exact ⟨r, ⟨hr, hp⟩, hk⟩

theorem card_keysWhere (t : KeyedTable key) (p : ρ → Bool) :
    (t.keysWhere p).card = (t.select p).length := by
  rw [keysWhere, List.toFinset_card_of_nodup (t.nodup_select p),
    List.length_map]

/-- Sweep number `k` finds the table `T k`, picks the first rows satisfying
`p k`, and takes them out of reach of all sweeps; rows it does not pick stay as
they are. -/
structure Sweeps (p : ℕ → ρ → Bool) (σ : ℕ → Sorting le) (limit : ℕ)
    (T : ℕ → KeyedTable key) : Prop where
  others : ∀ k x, x ∉ ((T k).pick (p k) (σ k) limit).map key →
    (T (k + 1)).find? x = (T k).find? x
  done : ∀ k, ∀ r ∈ (T k).pick (p k) (σ k) limit, ∀ s,
    (T (k + 1)).find? (key r) = some s → ∀ j, p j s = false

namespace Sweeps

variable {p : ℕ → ρ → Bool} {σ : ℕ → Sorting le} {limit : ℕ}
  {T : ℕ → KeyedTable key}

theorem find?_of_not_picked (h : Sweeps p σ limit T) {k : ℕ} {x : κ}
    (hx : ∀ i < k, x ∉ ((T i).pick (p i) (σ i) limit).map key) :
    (T k).find? x = (T 0).find? x := by
  induction k with
  | zero => rfl
  | succ k ih =>
      rw [h.others k x (hx k (by omega))]
      exact ih fun i hi => hx i (by omega)

theorem find?_of_reached (h : Sweeps p σ limit T) {k j : ℕ} {x : κ} {s : ρ}
    (hs : (T k).find? x = some s) (hp : p j s = true) :
    (T 0).find? x = some s := by
  induction k generalizing s with
  | zero => exact hs
  | succ k ih =>
      by_cases hx : x ∈ ((T k).pick (p k) (σ k) limit).map key
      · obtain ⟨r, hr, rfl⟩ := List.mem_map.mp hx
        have hfalse := h.done k r hr s hs j
        simp [hp] at hfalse
      · rw [h.others k x hx] at hs
        exact ih hs hp

/-- If the sweeps look for the same rows of the first table, they drain it. -/
theorem drains (h : Sweeps p σ limit T)
    (hsame : ∀ k, ∀ r ∈ (T 0).rows, p k r = p 0 r) :
    Drains (fun x y => ∀ r s, (T 0).find? x = some r →
        (T 0).find? y = some s → le r s) limit
      (fun k => (T k).keysWhere (p k))
      (fun k => (((T k).pick (p k) (σ k) limit).map key).toFinset) := by
  constructor
  · intro k
    constructor
    · intro x hx
      obtain ⟨r, hr, rfl⟩ := List.mem_map.mp (List.mem_toFinset.mp hx)
      exact List.mem_toFinset.mpr (List.mem_map_of_mem (mem_of_mem_pick hr))
    · rw [List.toFinset_card_of_nodup nodup_pick, List.length_map,
        length_pick, card_keysWhere]
    · intro x hx y hy hnot r s hr hs
      obtain ⟨r', hr', rfl⟩ := List.mem_map.mp (List.mem_toFinset.mp hx)
      obtain ⟨s', hs', hp⟩ := mem_keysWhere.mp hy
      obtain ⟨hmem, hpr⟩ := mem_select.mp (mem_of_mem_pick hr')
      have hr₀ := h.find?_of_reached (find?_of_mem hmem) hpr
      have hs₀ := h.find?_of_reached hs' hp
      obtain rfl := Option.some.inj (hr.symm.trans hr₀)
      obtain rfl := Option.some.inj (hs.symm.trans hs₀)
      obtain ⟨hmem', hkey⟩ := find?_eq_some_iff.mp hs'
      refine le_of_not_mem_pick hr' (mem_select.mpr ⟨hmem', hp⟩) ?_
      intro hpicked
      exact hnot (List.mem_toFinset.mpr
        (hkey ▸ List.mem_map_of_mem hpicked))
  · intro k
    ext x
    rw [Finset.mem_sdiff, List.mem_toFinset, mem_keysWhere, mem_keysWhere]
    by_cases hx : x ∈ ((T k).pick (p k) (σ k) limit).map key
    · obtain ⟨r, hr, rfl⟩ := List.mem_map.mp hx
      constructor
      · rintro ⟨s, hs, hp⟩
        rw [h.done k r hr s hs] at hp
        cases hp
      · rintro ⟨-, hnot⟩
        exact absurd hx hnot
    · rw [h.others k x hx]
      have hiff : ∀ s, (T k).find? x = some s →
          (p (k + 1) s = true ↔ p k s = true) := by
        intro s hs
        have hmem : ∀ j, p j s = true → s ∈ (T 0).rows := fun j hp =>
          (find?_eq_some_iff.mp (h.find?_of_reached hs hp)).1
        constructor
        · intro hp
          rw [hsame _ s (hmem _ hp), ← hsame (k + 1) s (hmem _ hp)]
          exact hp
        · intro hp
          rw [hsame _ s (hmem _ hp), ← hsame k s (hmem _ hp)]
          exact hp
      constructor
      · rintro ⟨s, hs, hp⟩
        exact ⟨⟨s, hs, (hiff s hs).mp hp⟩, hx⟩
      · rintro ⟨⟨s, hs, hp⟩, -⟩
        exact ⟨s, hs, (hiff s hs).mpr hp⟩

end Sweeps

/-- The calls of a sequence of sweeps, which return the keys `swept k` and
leave the tables `T k` behind, drain the rows that satisfy `p` in order, and
leave all other rows alone. -/
structure Drained (p : ρ → Bool) (le : ρ → ρ → Prop) (limit : ℕ)
    (T : ℕ → KeyedTable key) (swept : ℕ → List κ) : Prop where
  nodup : ∀ k, (swept k).Nodup
  count : ∀ k, (swept k).length =
    min limit (((T 0).select p).length - k * limit)
  sound : ∀ k, ∀ x ∈ swept k, ∃ r, (T 0).find? x = some r ∧ p r = true
  once : ∀ x r, (T 0).find? x = some r → p r = true → ∃! k, x ∈ swept k
  ordered : ∀ i j x y r s, i < j → x ∈ swept i → y ∈ swept j →
    (T 0).find? x = some r → (T 0).find? y = some s → le r s
  untouched : ∀ k x, (∀ i < k, x ∉ swept i) → (T k).find? x = (T 0).find? x
  settled : ∀ i k, i < k → ∀ x ∈ swept i,
    (T k).find? x = (T (i + 1)).find? x

/-- Sweeps that look for the same rows of the first table drain it, whatever
order they return the rows in. -/
theorem Sweeps.drained {p : ℕ → ρ → Bool} {σ : ℕ → Sorting le} {limit : ℕ}
    {T : ℕ → KeyedTable key} {swept : ℕ → List κ} (h : Sweeps p σ limit T)
    (hsame : ∀ k, ∀ r ∈ (T 0).rows, p k r = p 0 r) (hlimit : 0 < limit)
    (hswept : ∀ k, (swept k).Perm
      (((T k).pick (p k) (σ k) limit).map key)) :
    Drained (p 0) le limit T swept := by
  have hdrains := h.drains hsame
  have hmem : ∀ k x, x ∈ swept k ↔
      x ∈ (((T k).pick (p k) (σ k) limit).map key).toFinset := by
    intro k x
    rw [List.mem_toFinset, (hswept k).mem_iff]
  constructor
  · intro k
    exact (hswept k).nodup_iff.mpr nodup_pick
  · intro k
    have hcard := hdrains.card_picked k
    rw [List.toFinset_card_of_nodup nodup_pick, card_keysWhere] at hcard
    rw [(hswept k).length_eq, hcard]
  · intro k x hx
    exact mem_keysWhere.mp (hdrains.mem_zero ((hmem k x).mp hx))
  · intro x r hr hp
    simp only [hmem]
    exact hdrains.existsUnique_picked hlimit (mem_keysWhere.mpr ⟨r, hr, hp⟩)
  · intro i j x y r s hij hx hy hr hs
    exact hdrains.le_of_lt hij ((hmem i x).mp hx) ((hmem j y).mp hy) r s hr hs
  · intro k x hx
    refine h.find?_of_not_picked fun i hi hpicked => hx i hi ?_
    exact (hmem i x).mpr (List.mem_toFinset.mpr hpicked)
  · intro i k hik x hx
    induction k, hik using Nat.le_induction with
    | base => rfl
    | succ k hik ih =>
        rw [h.others k x, ih]
        intro hpicked
        exact (Nat.lt_of_succ_le hik).ne (hdrains.eq_of_picked
          ((hmem i x).mp hx) (List.mem_toFinset.mpr hpicked))

/-- One sweep: it answers `xs` for the rows it picks, leaves `row x` behind
for each answer `x`, related by `Q` to the row it found, and touches no other
row. -/
structure SweepCall {ω : Type*} (p : ρ → Bool) (σ : Sorting le) (limit : ℕ)
    (t t' : KeyedTable key) (keyOf : ω → κ) (row : ω → ρ) (Q : ρ → ω → Prop)
    (xs : List ω) : Prop where
  keys : (xs.map keyOf).Perm ((t.pick p σ limit).map key)
  answered : ∀ x ∈ xs, ∃ r, t.find? (keyOf x) = some r ∧ Q r x ∧
    t'.find? (keyOf x) = some (row x)
  others : ∀ k, k ∉ (t.pick p σ limit).map key → t'.find? k = t.find? k

/-- A sequence of sweeps that look for the same rows of the first table, and
leave rows behind that they do not look for, drains it. -/
theorem drained_of_calls {ω : Type*} {p : ℕ → ρ → Bool} {σ : ℕ → Sorting le}
    {limit : ℕ} {T : ℕ → KeyedTable key} {keyOf : ω → κ} {row : ω → ρ}
    {Q : ℕ → ρ → ω → Prop} {xs : ℕ → List ω}
    (hcall : ∀ k, SweepCall (p k) (σ k) limit (T k) (T (k + 1)) keyOf row
      (Q k) (xs k))
    (hdone : ∀ k r x, Q k r x → ∀ j, p j (row x) = false)
    (hsame : ∀ k, ∀ r ∈ (T 0).rows, p k r = p 0 r) (hlimit : 0 < limit) :
    (∀ k, ∀ x ∈ xs k, ∃ r, (T 0).find? (keyOf x) = some r ∧ Q k r x ∧
      (T (k + 1)).find? (keyOf x) = some (row x)) ∧
    Drained (p 0) le limit T fun k => (xs k).map keyOf := by
  have hsweeps : Sweeps p σ limit T := by
    refine ⟨fun k x hx => (hcall k).others x hx, fun k r hr s hs j => ?_⟩
    have hkey := (hcall k).keys.mem_iff.mpr (List.mem_map_of_mem hr)
    obtain ⟨x, hx, hxkey⟩ := List.mem_map.mp hkey
    obtain ⟨q, -, hQ, hrow⟩ := (hcall k).answered x hx
    rw [hxkey, hs] at hrow
    obtain rfl := Option.some.inj hrow
    exact hdone k q x hQ j
  refine ⟨fun k x hx => ?_,
    hsweeps.drained hsame hlimit fun k => (hcall k).keys⟩
  obtain ⟨r, hr, hQ, hrow⟩ := (hcall k).answered x hx
  have hkey := (hcall k).keys.mem_iff.mp (List.mem_map_of_mem hx)
  obtain ⟨q, hq, hqkey⟩ := List.mem_map.mp hkey
  obtain ⟨hmem, hp⟩ := mem_select.mp (mem_of_mem_pick hq)
  rw [← hqkey, find?_of_mem hmem] at hr
  obtain rfl := Option.some.inj hr
  refine ⟨q, ?_, hQ, hrow⟩
  rw [← hqkey]
  exact hsweeps.find?_of_reached (find?_of_mem hmem) hp

end KeyedTable

/-- Calls that always return from the states they keep to can be made for
ever. -/
theorem exists_calls {τ ω : Type*} {P : τ → Prop} {R : ℕ → τ → τ → ω → Prop}
    {s : τ} (hs : P s)
    (hcall : ∀ k s, P s → ∃ s' x, R k s s' x ∧ P s') :
    ∃ (S : ℕ → τ) (X : ℕ → ω), S 0 = s ∧
      ∀ k, R k (S k) (S (k + 1)) (X k) := by
  choose next out hnext using hcall
  let S : ℕ → {s // P s} := fun k => Nat.rec ⟨s, hs⟩
    (fun k s => ⟨next k s.1 s.2, (hnext k s.1 s.2).2⟩) k
  exact ⟨fun k => (S k).1, fun k => out k (S k).1 (S k).2, rfl,
    fun k => (hnext k (S k).1 (S k).2).1⟩

end Support
