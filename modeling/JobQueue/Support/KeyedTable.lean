import Mathlib.Data.List.Nodup
import Mathlib.Data.List.Sort

/-!
# Keyed tables

A relation is a finite list of rows told apart by a key.  The two statements
that matter here are the conditional update, which rewrites every row that
satisfies a predicate and returns the rewritten rows, and the insertion of one
row under an unused key.  Updates never touch the key, so uniqueness of keys is
carried by the structure and is never proved again.
-/

namespace Support

/-- Rows of type `ρ`, no two of which share the same key. -/
structure KeyedTable {κ ρ : Type*} (key : ρ → κ) where
  rows : List ρ
  nodup : (rows.map key).Nodup

/-- The right-hand side of an update: a rewriting that keeps the key. -/
structure Assignment {κ ρ : Type*} (key : ρ → κ) where
  set : ρ → ρ
  key_set : ∀ r, key (set r) = key r

namespace KeyedTable

variable {κ ρ : Type*} {key : ρ → κ}

def empty : KeyedTable key := ⟨[], List.nodup_nil⟩

/-- Rows that satisfy `p`, in physical order. -/
def select (t : KeyedTable key) (p : ρ → Bool) : List ρ :=
  t.rows.filter p

/-- Rows that satisfy `p`, ordered by `le`, at most `limit` of them. -/
def selectOrdered (t : KeyedTable key) (p : ρ → Bool)
    (le : ρ → ρ → Prop) [DecidableRel le] (limit : ℕ) : List ρ :=
  ((t.select p).insertionSort le).take limit

def returning (t : KeyedTable key) (p : ρ → Bool)
    (a : Assignment key) : List ρ :=
  (t.select p).map a.set

def updateWhere (t : KeyedTable key) (p : ρ → Bool)
    (a : Assignment key) : KeyedTable key where
  rows := t.rows.map fun r => if p r then a.set r else r
  nodup := by
    have hkeys :
        (t.rows.map fun r => if p r then a.set r else r).map key =
          t.rows.map key := by
      rw [List.map_map]
      apply List.map_congr_left
      intro r _
      by_cases hp : p r
      · simp [hp, a.key_set]
      · simp [hp]
    rw [hkeys]
    exact t.nodup

/-- Give every row another shape, under the same key. -/
def map {ρ' : Type*} {key' : ρ' → κ} (t : KeyedTable key) (f : ρ → ρ')
    (hf : ∀ r, key' (f r) = key r) : KeyedTable key' where
  rows := t.rows.map f
  nodup := by
    have hkeys : (t.rows.map f).map key' = t.rows.map key := by
      rw [List.map_map]
      exact List.map_congr_left fun r _ => hf r
    rw [hkeys]
    exact t.nodup

section Find

variable [DecidableEq κ]

def find? (t : KeyedTable key) (k : κ) : Option ρ :=
  t.rows.find? fun r => key r = k

def insert (t : KeyedTable key) (r : ρ) (hfresh : t.find? (key r) = none) :
    KeyedTable key where
  rows := t.rows ++ [r]
  nodup := by
    rw [List.map_append, List.nodup_append]
    refine ⟨t.nodup, List.nodup_singleton _, ?_⟩
    intro k hk k' hk' heq
    obtain ⟨s, hs, rfl⟩ := List.mem_map.mp hk
    have hnot := List.find?_eq_none.mp hfresh s hs
    simp_all

theorem find?_eq_some_iff {t : KeyedTable key} {k : κ} {r : ρ} :
    t.find? k = some r ↔ r ∈ t.rows ∧ key r = k := by
  have hsound : ∀ s, t.find? k = some s → s ∈ t.rows ∧ key s = k := by
    intro s hs
    have hkey := List.find?_some hs
    exact ⟨List.mem_of_find?_eq_some hs, of_decide_eq_true hkey⟩
  refine ⟨hsound r, ?_⟩
  rintro ⟨hr, hk⟩
  cases hfind : t.find? k with
  | none =>
      have hnot := List.find?_eq_none.mp hfind r hr
      exact absurd (decide_eq_true hk) hnot
  | some s =>
      obtain ⟨hs, hks⟩ := hsound s hfind
      have hsame : key s = key r := hks.trans hk.symm
      rw [List.inj_on_of_nodup_map t.nodup hs hr hsame]

theorem key_of_find?_eq_some {t : KeyedTable key} {k : κ} {r : ρ}
    (h : t.find? k = some r) : key r = k :=
  (find?_eq_some_iff.mp h).2

theorem find?_of_mem {t : KeyedTable key} {r : ρ} (hr : r ∈ t.rows) :
    t.find? (key r) = some r :=
  find?_eq_some_iff.mpr ⟨hr, rfl⟩

theorem find?_updateWhere (t : KeyedTable key) (p : ρ → Bool)
    (a : Assignment key) (k : κ) :
    (t.updateWhere p a).find? k =
      (t.find? k).map fun r => if p r then a.set r else r := by
  have hkey : (fun r => decide (key (if p r then a.set r else r) = k)) =
      fun r => decide (key r = k) := by
    funext r
    by_cases hp : p r
    · simp [hp, a.key_set]
    · simp [hp]
  simp only [find?, updateWhere, List.find?_map, Function.comp_def, hkey]

theorem find?_insert (t : KeyedTable key) (r : ρ)
    (hfresh : t.find? (key r) = none) (k : κ) :
    (t.insert r hfresh).find? k =
      if k = key r then some r else t.find? k := by
  by_cases hk : k = key r
  · subst hk
    rw [if_pos rfl]
    exact find?_of_mem (by simp [insert])
  · rw [if_neg hk]
    have hne : ¬ key r = k := fun h => hk h.symm
    simp [find?, insert, List.find?_append, hne]

/-- An update that can only hit the row under `k` returns at most that row. -/
theorem returning_of_key (t : KeyedTable key) {p : ρ → Bool} {k : κ}
    (hp : ∀ r, p r = true → key r = k) (a : Assignment key) :
    t.returning p a = (((t.find? k).filter p).map a.set).toList := by
  have hselect : t.select p = ((t.find? k).filter p).toList := by
    have hkey : ∀ r, r ∈ t.select p ↔ t.find? k = some r ∧ p r = true := by
      intro r
      rw [select, List.mem_filter, find?_eq_some_iff]
      constructor
      · rintro ⟨hr, hpr⟩
        exact ⟨⟨hr, hp r hpr⟩, hpr⟩
      · rintro ⟨⟨hr, _⟩, hpr⟩
        exact ⟨hr, hpr⟩
    cases hfind : (t.find? k).filter p with
    | none =>
        apply List.eq_nil_iff_forall_not_mem.mpr
        intro r hr
        obtain ⟨hk, hpr⟩ := (hkey r).mp hr
        simp [hk, hpr] at hfind
    | some s =>
        obtain ⟨hk, hps⟩ := Option.filter_eq_some_iff.mp hfind
        have hnodup : (t.select p).Nodup :=
          (t.nodup.of_map _).filter _
        apply List.perm_singleton.mp
        rw [List.perm_ext_iff_of_nodup hnodup (List.nodup_singleton s)]
        intro r
        rw [hkey, hk, List.mem_singleton]
        constructor
        · rintro ⟨heq, _⟩
          exact (Option.some.inj heq).symm
        · rintro rfl
          exact ⟨rfl, hps⟩
  rw [returning, hselect]
  cases (t.find? k).filter p <;> rfl

end Find

theorem mem_select {t : KeyedTable key} {p : ρ → Bool} {r : ρ} :
    r ∈ t.select p ↔ r ∈ t.rows ∧ p r = true :=
  List.mem_filter

theorem mem_selectOrdered {t : KeyedTable key} {p : ρ → Bool}
    {le : ρ → ρ → Prop} [DecidableRel le] {limit : ℕ} {r : ρ}
    (h : r ∈ t.selectOrdered p le limit) : r ∈ t.rows ∧ p r = true := by
  have hsort := List.mem_of_mem_take h
  rw [List.mem_insertionSort] at hsort
  exact mem_select.mp hsort

/-- A limit that exceeds the table leaves no row out. -/
theorem mem_selectOrdered_of_length_le {t : KeyedTable key} {p : ρ → Bool}
    {le : ρ → ρ → Prop} [DecidableRel le] {limit : ℕ} {r : ρ}
    (hlimit : t.rows.length ≤ limit) (hr : r ∈ t.rows) (hp : p r = true) :
    r ∈ t.selectOrdered p le limit := by
  have hlength : ((t.select p).insertionSort le).length ≤ limit := by
    rw [List.length_insertionSort]
    exact (List.length_filter_le p t.rows).trans hlimit
  rw [selectOrdered, List.take_of_length_le hlength, List.mem_insertionSort]
  exact mem_select.mpr ⟨hr, hp⟩

/-- A selection that may return a row and finds one returns one. -/
theorem exists_mem_selectOrdered {t : KeyedTable key} {p : ρ → Bool}
    {le : ρ → ρ → Prop} [DecidableRel le] {limit : ℕ} {r : ρ}
    (hr : r ∈ t.rows) (hp : p r = true) (hlimit : 1 ≤ limit) :
    ∃ s, s ∈ t.selectOrdered p le limit := by
  apply List.exists_mem_of_length_pos
  have hselect : 0 < (t.select p).length :=
    List.length_pos_of_mem (mem_select.mpr ⟨hr, hp⟩)
  rw [selectOrdered, List.length_take, List.length_insertionSort]
  omega

theorem length_selectOrdered_le (t : KeyedTable key) (p : ρ → Bool)
    (le : ρ → ρ → Prop) [DecidableRel le] (limit : ℕ) :
    (t.selectOrdered p le limit).length ≤ limit :=
  List.length_take_le _ _

theorem nodup_select (t : KeyedTable key) (p : ρ → Bool) :
    ((t.select p).map key).Nodup :=
  t.nodup.sublist (List.filter_sublist.map key)

theorem nodup_selectOrdered (t : KeyedTable key) (p : ρ → Bool)
    (le : ρ → ρ → Prop) [DecidableRel le] (limit : ℕ) :
    ((t.selectOrdered p le limit).map key).Nodup := by
  have hsort : (((t.select p).insertionSort le).map key).Nodup :=
    ((List.perm_insertionSort le _).map key).nodup_iff.mpr (t.nodup_select p)
  exact hsort.sublist ((List.take_sublist _ _).map key)

theorem updateWhere_eq_self {t : KeyedTable key} {p : ρ → Bool}
    (h : ∀ r ∈ t.rows, p r = false) (a : Assignment key) :
    t.updateWhere p a = t := by
  have hrows : (t.rows.map fun r => if p r then a.set r else r) = t.rows := by
    conv_rhs => rw [← List.map_id t.rows]
    apply List.map_congr_left
    intro r hr
    simp [h r hr]
  cases t
  simp only [updateWhere, mk.injEq]
  exact hrows

end KeyedTable
end Support
