import JobQueue.Support.KeyedTable

/-!
# Row versions laid over a table

A transaction that has not committed keeps new versions of some rows to
itself; its commit lays them over the table.  While it is open the table may
move on, but the rows it has locked stay.  The rules here say what survives:
rows that agree are found by the same selections, in the same order, and a
table is determined by its keys and by what is stored under each of them.
-/

namespace Support

/-! ## Sorting and filtering -/

section Sorting

variable {α : Type*} {r : α → α → Prop} [DecidableRel r]

theorem orderedInsert_of_forall_rel {a : α} {l : List α}
    (h : ∀ b ∈ l, r a b) : l.orderedInsert r a = a :: l := by
  cases l with
  | nil => rfl
  | cons b l => exact List.orderedInsert_cons_of_le r l (h b (by simp))

theorem filter_orderedInsert [IsTrans α r] (p : α → Bool) (a : α) {l : List α}
    (hl : l.Pairwise r) :
    (l.orderedInsert r a).filter p =
      if p a then (l.filter p).orderedInsert r a else l.filter p := by
  induction l with
  | nil =>
      by_cases hp : p a
      · simp [hp]
      · simp [hp]
  | cons b l ih =>
      obtain ⟨hhead, htail⟩ := List.pairwise_cons.mp hl
      by_cases hab : r a b
      · rw [List.orderedInsert_cons_of_le r l hab, List.filter_cons]
        split
        · -- `a` comes before everything that is left
          rw [orderedInsert_of_forall_rel]
          intro c hc
          rcases List.mem_cons.mp (List.mem_of_mem_filter hc) with rfl | hc
          · exact hab
          · exact IsTrans.trans a b c hab (hhead c hc)
        · rfl
      · rw [List.orderedInsert_of_not_le r l hab, List.filter_cons, ih htail,
          List.filter_cons]
        by_cases hp : p a
        · by_cases hq : p b
          · simp [hp, hq, hab]
          · simp [hp, hq]
        · simp [hp]

/-- Sorting is stable: it commutes with leaving elements out. -/
theorem filter_insertionSort [Std.Total r] [IsTrans α r] (p : α → Bool)
    (l : List α) :
    (l.insertionSort r).filter p = (l.filter p).insertionSort r := by
  induction l with
  | nil => rfl
  | cons a l ih =>
      rw [List.insertionSort_cons, filter_orderedInsert p a
        (List.pairwise_insertionSort r l), ih, List.filter_cons]
      split
      · rfl
      · rfl

end Sorting

namespace KeyedTable

variable {κ ρ : Type*} {key : ρ → κ}

/-! ## Tables that move on -/

/-- The keys of the table are still there, in their order. -/
def Extends (t t' : KeyedTable key) : Prop :=
  t.rows.map key <+: t'.rows.map key

theorem Extends.refl (t : KeyedTable key) : Extends t t :=
  List.prefix_refl _

theorem Extends.trans {t t' t'' : KeyedTable key} (h : Extends t t')
    (h' : Extends t' t'') : Extends t t'' :=
  List.IsPrefix.trans h h'

theorem extends_of_keys {t t' : KeyedTable key}
    (h : t'.rows.map key = t.rows.map key) : Extends t t' :=
  ⟨[], by rw [List.append_nil, h]⟩

theorem keys_updateWhere (t : KeyedTable key) (p : ρ → Bool)
    (a : Assignment key) :
    (t.updateWhere p a).rows.map key = t.rows.map key := by
  rw [updateWhere, List.map_map]
  refine List.map_congr_left fun r _ => ?_
  by_cases hp : p r
  · simp [hp, a.key_set]
  · simp [hp]

/-- A selection that finds rows with few keys leaves none of them out. -/
theorem mem_selectOrdered_of_keys {t : KeyedTable key} {p : ρ → Bool}
    {le : ρ → ρ → Prop} [DecidableRel le] {limit : ℕ} {ks : List κ}
    (hks : ∀ r ∈ t.rows, p r = true → key r ∈ ks)
    (hlimit : ks.length ≤ limit) {r : ρ} (hr : r ∈ t.rows)
    (hp : p r = true) : r ∈ t.selectOrdered p le limit := by
  have hsub : (t.select p).map key ⊆ ks := by
    intro k hk
    obtain ⟨s, hs, rfl⟩ := List.mem_map.mp hk
    exact hks s (mem_select.mp hs).1 (mem_select.mp hs).2
  have hlength := (List.subperm_of_subset (t.nodup_select p) hsub).length_le
  rw [List.length_map] at hlength
  rw [selectOrdered, List.take_of_length_le, List.mem_insertionSort]
  · exact mem_select.mpr ⟨hr, hp⟩
  · rw [List.length_insertionSort]
    exact hlength.trans hlimit

variable [DecidableEq κ]

theorem extends_insert (t : KeyedTable key) (r : ρ)
    (hfresh : t.find? (key r) = none) : Extends t (t.insert r hfresh) := by
  rw [Extends, insert, List.map_append]
  exact List.prefix_append _ _

/-! ## Laying rows over a table -/

/-- The table with the given versions in place of its rows of the same
keys. -/
def overwrite (t : KeyedTable key) (versions : List ρ) : KeyedTable key where
  rows := t.rows.map fun r =>
    (versions.find? fun s => key s = key r).getD r
  nodup := by
    have hkeys : (t.rows.map fun r =>
        (versions.find? fun s => key s = key r).getD r).map key =
          t.rows.map key := by
      rw [List.map_map]
      refine List.map_congr_left fun r _ => ?_
      cases hfind : versions.find? fun s => key s = key r with
      | none => simp [hfind]
      | some s =>
          have hkey := List.find?_some hfind
          simpa [hfind] using hkey
    rw [hkeys]
    exact t.nodup

theorem keys_overwrite (t : KeyedTable key) (versions : List ρ) :
    (t.overwrite versions).rows.map key = t.rows.map key := by
  rw [overwrite, List.map_map]
  refine List.map_congr_left fun r _ => ?_
  cases hfind : versions.find? fun s => key s = key r with
  | none => simp [hfind]
  | some s =>
      have hkey := List.find?_some hfind
      simpa [hfind] using hkey

theorem find?_overwrite (t : KeyedTable key) (versions : List ρ) (k : κ) :
    (t.overwrite versions).find? k =
      (t.find? k).map fun r =>
        (versions.find? fun s => key s = k).getD r := by
  cases hr : t.find? k with
  | none =>
      have hnone := List.find?_eq_none.mp hr
      refine List.find?_eq_none.mpr fun s hs => ?_
      have hmem : key s ∈ (t.overwrite versions).rows.map key :=
        List.mem_map_of_mem hs
      rw [keys_overwrite] at hmem
      obtain ⟨r, hr, hkey⟩ := List.mem_map.mp hmem
      rw [← hkey]
      exact hnone r hr
  | some r =>
      obtain ⟨hmem, rfl⟩ := find?_eq_some_iff.mp hr
      refine find?_eq_some_iff.mpr ⟨List.mem_map.mpr ⟨r, hmem, rfl⟩, ?_⟩
      cases hfind : versions.find? fun s => key s = key r with
      | none => simp
      | some s =>
          have hkey := List.find?_some hfind
          simpa using hkey

theorem find?_overwrite_of_notMem (t : KeyedTable key) {versions : List ρ}
    {k : κ} (hk : k ∉ versions.map key) :
    (t.overwrite versions).find? k = t.find? k := by
  have hnone : versions.find? (fun s => key s = k) = none := by
    refine List.find?_eq_none.mpr fun s hs => ?_
    intro hkey
    exact hk (List.mem_map.mpr ⟨s, hs, by simpa using hkey⟩)
  rw [find?_overwrite, hnone]
  simp

theorem find?_overwrite_of_mem {t : KeyedTable key} {versions : List ρ}
    (hnodup : (versions.map key).Nodup) {s : ρ} (hs : s ∈ versions)
    (hrow : (t.find? (key s)).isSome = true) :
    (t.overwrite versions).find? (key s) = some s := by
  obtain ⟨r, hr⟩ := Option.isSome_iff_exists.mp hrow
  have hfind : versions.find? (fun x => key x = key s) = some s :=
    find?_of_mem (t := ⟨versions, hnodup⟩) hs
  rw [find?_overwrite, hr, hfind]
  rfl

/-- The versions are what is found in the table that holds them. -/
theorem filterMap_find?_overwrite {t : KeyedTable key} {versions : List ρ}
    (hnodup : (versions.map key).Nodup)
    (hrows : ∀ s ∈ versions, (t.find? (key s)).isSome = true) :
    (versions.map key).filterMap (t.overwrite versions).find? = versions := by
  have hfind : ∀ s ∈ versions,
      ((t.overwrite versions).find? ∘ key) s = some s :=
    fun s hs => find?_overwrite_of_mem hnodup hs (hrows s hs)
  rw [List.filterMap_map, List.filterMap_congr hfind, List.filterMap_some]

/-! ## What determines a table -/

/-- The rows under some keys are those keys looked up, in the order of the
table. -/
theorem select_keys (t : KeyedTable key) (ks : List κ) :
    t.select (fun r => key r ∈ ks) =
      ((t.rows.map key).filter (· ∈ ks)).filterMap t.find? := by
  rw [select, List.filter_map, List.filterMap_map]
  have hfind : ∀ r ∈ t.rows.filter ((· ∈ ks) ∘ key),
      (t.find? ∘ key) r = some r := fun r hr =>
    find?_of_mem (List.mem_of_mem_filter hr)
  rw [List.filterMap_congr hfind, List.filterMap_some]
  rfl

theorem ext_find? {t t' : KeyedTable key}
    (hkeys : t.rows.map key = t'.rows.map key)
    (hfind : ∀ k, t.find? k = t'.find? k) : t = t' := by
  have hrows : ∀ t : KeyedTable key,
      t.rows = (t.rows.map key).filterMap t.find? := by
    intro t
    have hfind : ∀ r ∈ t.rows, (t.find? ∘ key) r = some r := fun r hr =>
      find?_of_mem hr
    rw [List.filterMap_map, List.filterMap_congr hfind, List.filterMap_some]
  have heq : t.rows = t'.rows := by
    rw [hrows t, hrows t', hkeys, List.filterMap_congr fun k _ => hfind k]
  cases t
  cases t'
  congr

/-! ## Rows that stay -/

/-- The table moves on and leaves the rows under some keys as they are. -/
structure MovesAround (ks : List κ) (t t' : KeyedTable key) : Prop where
  moves : Extends t t'
  same : ∀ k ∈ ks, t'.find? k = t.find? k

theorem MovesAround.refl (ks : List κ) (t : KeyedTable key) :
    MovesAround ks t t :=
  ⟨Extends.refl t, fun _ _ => rfl⟩

theorem MovesAround.trans {ks : List κ} {t t' t'' : KeyedTable key}
    (h : MovesAround ks t t') (h' : MovesAround ks t' t'') :
    MovesAround ks t t'' :=
  ⟨h.moves.trans h'.moves,
    fun k hk => (h'.same k hk).trans (h.same k hk)⟩

/-- Versions of other rows do not disturb. -/
theorem movesAround_overwrite {ks : List κ} (t : KeyedTable key)
    {versions : List ρ} (h : ∀ k ∈ ks, k ∉ versions.map key) :
    MovesAround ks t (t.overwrite versions) :=
  ⟨extends_of_keys (keys_overwrite t versions),
    fun k hk => find?_overwrite_of_notMem t (h k hk)⟩

/-- Rows that stay as they are stay where they are. -/
theorem MovesAround.select_keys {t t' : KeyedTable key} {ks : List κ}
    (h : MovesAround ks t t') (hks : ∀ k ∈ ks, (t.find? k).isSome = true) :
    t'.select (fun r => key r ∈ ks) = t.select (fun r => key r ∈ ks) := by
  obtain ⟨⟨new, hnew⟩, hagree⟩ := h
  have hfresh : new.filter (· ∈ ks) = [] := by
    refine List.filter_eq_nil_iff.mpr fun k hk hmem => ?_
    obtain ⟨r, hr⟩ :=
      Option.isSome_iff_exists.mp (hks k (by simpa using hmem))
    obtain ⟨hrow, rfl⟩ := find?_eq_some_iff.mp hr
    have hnodup := t'.nodup
    rw [← hnew] at hnodup
    exact List.disjoint_of_nodup_append hnodup (List.mem_map_of_mem hrow) hk
  rw [KeyedTable.select_keys, KeyedTable.select_keys, ← hnew,
    List.filter_append, hfresh, List.append_nil]
  exact List.filterMap_congr fun k hk =>
    hagree k (by simpa using List.of_mem_filter hk)

section Ordered

variable {le : ρ → ρ → Prop} [DecidableRel le] [Std.Total le] [IsTrans ρ le]

/-- A selection restricted to its own result selects the same. -/
theorem selectOrdered_restrict (t : KeyedTable key) (p : ρ → Bool)
    (limit : ℕ) {ks : List κ}
    (hks : ks = (t.selectOrdered p le limit).map key) :
    t.selectOrdered (fun r => p r && decide (key r ∈ ks)) le limit =
      t.selectOrdered p le limit := by
  have hsort : ((t.select p).insertionSort le).filter (key · ∈ ks) =
      t.selectOrdered p le limit := by
    have hnodup : (((t.select p).insertionSort le).map key).Nodup :=
      ((List.perm_insertionSort le _).map key).nodup_iff.mpr
        (t.nodup_select p)
    have hsplit :=
      List.take_append_drop limit ((t.select p).insertionSort le)
    rw [← hsplit, List.map_append] at hnodup
    rw [← hsplit, List.filter_append, List.filter_eq_self.mpr,
      List.filter_eq_nil_iff.mpr, List.append_nil]
    · rfl
    · intro r hr hmem
      rw [decide_eq_true_eq, hks] at hmem
      exact List.disjoint_of_nodup_append hnodup hmem
        (List.mem_map_of_mem hr)
    · intro r hr
      rw [decide_eq_true_eq, hks]
      exact List.mem_map_of_mem hr
  have hselect : t.select (fun r => p r && decide (key r ∈ ks)) =
      (t.select p).filter (key · ∈ ks) := by
    rw [select, select, List.filter_filter]
    exact List.filter_congr fun r _ => Bool.and_comm _ _
  rw [selectOrdered, hselect, ← filter_insertionSort, hsort]
  exact List.take_of_length_le (length_selectOrdered_le t p le limit)

/-- A selection that is repeated after the table has moved on, and restricted
to the rows it found, finds them again, if they stayed as they were. -/
theorem MovesAround.selectOrdered {t t' : KeyedTable key} {p : ρ → Bool}
    {limit : ℕ} {ks : List κ} (h : MovesAround ks t t')
    (hks : ks = (t.selectOrdered p le limit).map key) :
    t'.selectOrdered (fun r => p r && decide (key r ∈ ks)) le limit =
      t.selectOrdered p le limit := by
  have hsome : ∀ k ∈ ks, (t.find? k).isSome = true := by
    intro k hk
    rw [hks] at hk
    obtain ⟨r, hr, rfl⟩ := List.mem_map.mp hk
    rw [find?_of_mem (mem_selectOrdered hr).1]
    rfl
  have hselect : ∀ t : KeyedTable key,
      t.select (fun r => p r && decide (key r ∈ ks)) =
        (t.select (fun r => key r ∈ ks)).filter p := by
    intro t
    rw [select, select, List.filter_filter]
  rw [← selectOrdered_restrict t p limit hks, KeyedTable.selectOrdered,
    KeyedTable.selectOrdered, hselect, hselect, h.select_keys hsome]

end Ordered

end KeyedTable
end Support
