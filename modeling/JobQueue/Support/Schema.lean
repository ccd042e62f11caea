import JobQueue.Support.KeyedTable

/-!
# Record schemas

A schema lists the fields a record may have, each with a check that turns a
value into its canonical form, and a default unless the field is required.
Validation reads every field, complains about each that is missing or fails
its check and about each key the schema does not know, and otherwise yields
the canonical record: all fields, in the order of the schema.  The schema
accepts the canonical record as it is exactly if the checks do.
-/

namespace Support

/-- Values under distinct keys. -/
abbrev Record (κ V : Type*) := KeyedTable (Prod.fst : κ × V → κ)

/-- A field: its check, and its default unless it is required. -/
structure SchemaField (κ V M : Type*) where
  key : κ
  default : Option V
  check : V → Except M V

/-- Fields under distinct keys. -/
abbrev Schema (κ V M : Type*) :=
  KeyedTable (SchemaField.key : SchemaField κ V M → κ)

section Records

variable {κ V : Type*} [DecidableEq κ]

def Record.get? (r : Record κ V) (k : κ) : Option V :=
  (r.find? k).map Prod.snd

theorem Record.get?_eq_some_iff {r : Record κ V} {k : κ} {v : V} :
    r.get? k = some v ↔ (k, v) ∈ r.rows := by
  rw [Record.get?, Option.map_eq_some_iff]
  constructor
  · rintro ⟨⟨k', v'⟩, hfind, rfl⟩
    obtain ⟨hmem, rfl⟩ := KeyedTable.find?_eq_some_iff.mp hfind
    exact hmem
  · intro hmem
    exact ⟨(k, v), KeyedTable.find?_of_mem hmem, rfl⟩

end Records

section Fields

variable {κ V M : Type*}

theorem keys_filterMap {β : Type*} {g : SchemaField κ V M → Option (κ × β)}
    (hkey : ∀ f x, g f = some x → x.1 = f.key)
    (fs : List (SchemaField κ V M)) :
    (fs.filterMap g).map Prod.fst =
      (fs.filter fun f => (g f).isSome).map SchemaField.key := by
  induction fs with
  | nil => rfl
  | cons f fs ih =>
      rw [List.filterMap_cons, List.filter_cons]
      cases hg : g f with
      | none => exact ih
      | some x =>
          rw [Option.isSome_some, if_pos rfl, List.map_cons, List.map_cons,
            hkey f x hg, ih]

/-- A field whose check accepts what it has produced, and its own default. -/
structure SchemaField.Stable (f : SchemaField κ V M) : Prop where
  check : ∀ {v w}, f.check v = .ok w → f.check w = .ok w
  default : ∀ {d}, f.default = some d → f.check d = .ok d

theorem SchemaField.Stable.of_required {f : SchemaField κ V M}
    (hrequired : f.default = none)
    (hcheck : ∀ {v w}, f.check v = .ok w → f.check w = .ok w) : f.Stable :=
  ⟨hcheck, fun h => by rw [hrequired] at h; cases h⟩

end Fields

variable {κ V M : Type*} [DecidableEq κ]

/-- The canonical value of a field of the record, or the complaint. -/
def SchemaField.read (f : SchemaField κ V M) (missing : M)
    (r : Record κ V) : Except M V :=
  match r.get? f.key with
  | some v => f.check v
  | none => f.default.elim (.error missing) .ok

def SchemaField.complaint (f : SchemaField κ V M) (missing : M)
    (r : Record κ V) : Option (κ × M) :=
  match f.read missing r with
  | .ok _ => none
  | .error m => some (f.key, m)

/-- The field as it stands in the canonical record. -/
def SchemaField.entry (f : SchemaField κ V M) (missing : M)
    (r : Record κ V) : Option (κ × V) :=
  match f.read missing r with
  | .ok v => some (f.key, v)
  | .error _ => none

section Keys

variable {f : SchemaField κ V M} {missing : M} {r : Record κ V}

theorem fst_of_complaint {x : κ × M} (h : f.complaint missing r = some x) :
    x.1 = f.key := by
  unfold SchemaField.complaint at h
  split at h
  · cases h
  · cases h
    rfl

theorem fst_of_entry {x : κ × V} (h : f.entry missing r = some x) :
    x.1 = f.key := by
  unfold SchemaField.entry at h
  split at h
  · cases h
    rfl
  · cases h

end Keys

theorem SchemaField.Stable.check_of_read {f : SchemaField κ V M}
    (h : f.Stable) {missing : M} {r : Record κ V} {v : V}
    (hread : f.read missing r = .ok v) : f.check v = .ok v := by
  unfold SchemaField.read at hread
  split at hread
  · exact h.check hread
  · cases hdefault : f.default with
    | none =>
        rw [hdefault] at hread
        cases hread
    | some d =>
        rw [hdefault] at hread
        cases hread
        exact h.default hdefault

theorem SchemaField.check_of_required {f : SchemaField κ V M}
    (hrequired : f.default = none) {missing : M} {r : Record κ V} {w : V}
    (hread : f.read missing r = .ok w) : ∃ v, f.check v = .ok w := by
  unfold SchemaField.read at hread
  split at hread
  · next v _ => exact ⟨v, hread⟩
  · rw [hrequired] at hread
    cases hread

namespace Schema

/-- All complaints about a record: the fields in the order of the schema, then
the unknown keys in the order of the record. -/
def complaints (s : Schema κ V M) (missing unknown : M) (r : Record κ V) :
    List (κ × M) :=
  s.rows.filterMap (fun f => f.complaint missing r) ++
    (r.rows.filter fun x => (s.find? x.1).isNone).map fun x => (x.1, unknown)

/-- The fields that can be read, in their canonical form. -/
def canonical (s : Schema κ V M) (missing : M) (r : Record κ V) :
    Record κ V where
  rows := s.rows.filterMap fun f => f.entry missing r
  nodup := by
    rw [keys_filterMap fun f x => fst_of_entry]
    exact s.nodup.sublist (List.filter_sublist.map _)

def validate (s : Schema κ V M) (missing unknown : M) (r : Record κ V) :
    Except (List (κ × M)) (Record κ V) :=
  if (s.complaints missing unknown r).isEmpty then .ok (s.canonical missing r)
  else .error (s.complaints missing unknown r)

variable {s : Schema κ V M} {missing unknown : M} {r c : Record κ V}

/-! ## Complaints -/

theorem complaint_eq_some_iff {f : SchemaField κ V M} {k : κ} {m : M} :
    f.complaint missing r = some (k, m) ↔
      f.key = k ∧ f.read missing r = .error m := by
  unfold SchemaField.complaint
  cases f.read missing r with
  | ok v => simp
  | error m' => simp

/-- What is complained about: a field that cannot be read, or a key of the
record that is unknown. -/
theorem mem_complaints_iff {k : κ} {m : M} :
    (k, m) ∈ s.complaints missing unknown r ↔
      (∃ f ∈ s.rows, f.key = k ∧ f.read missing r = .error m) ∨
        m = unknown ∧ s.find? k = none ∧ ∃ v, r.get? k = some v := by
  simp only [complaints, List.mem_append, List.mem_filterMap,
    complaint_eq_some_iff, List.mem_map, List.mem_filter,
    Option.isNone_iff_eq_none, Record.get?_eq_some_iff]
  constructor
  · rintro (hfield | ⟨⟨k', v⟩, ⟨hmem, hnone⟩, heq⟩)
    · exact Or.inl hfield
    · obtain ⟨rfl, rfl⟩ := Prod.mk.inj heq
      exact Or.inr ⟨rfl, hnone, v, hmem⟩
  · rintro (hfield | ⟨rfl, hnone, v, hmem⟩)
    · exact Or.inl hfield
    · exact Or.inr ⟨(k, v), ⟨hmem, hnone⟩, rfl⟩

theorem nodup_complaints (s : Schema κ V M) (missing unknown : M)
    (r : Record κ V) :
    ((s.complaints missing unknown r).map Prod.fst).Nodup := by
  rw [complaints, List.map_append,
    keys_filterMap fun f x => fst_of_complaint, List.map_map,
    List.nodup_append]
  refine ⟨s.nodup.sublist (List.filter_sublist.map _),
    r.nodup.sublist (List.filter_sublist.map _), ?_⟩
  rintro k hfield k' hunknown rfl
  obtain ⟨f, hf, rfl⟩ := List.mem_map.mp hfield
  obtain ⟨x, hx, heq⟩ := List.mem_map.mp hunknown
  have hnone := (List.mem_filter.mp hx).2
  rw [Function.comp_apply] at heq
  rw [heq, KeyedTable.find?_of_mem (List.mem_filter.mp hf).1] at hnone
  cases hnone

/-! ## Accepted records -/

/-- A record is accepted if every field can be read and every key is known. -/
theorem validate_eq_ok_iff : s.validate missing unknown r = .ok c ↔
    (∀ f ∈ s.rows, ∃ v, f.read missing r = .ok v) ∧
      (∀ k v, r.get? k = some v → (s.find? k).isSome = true) ∧
      c = s.canonical missing r := by
  have hnil : (s.complaints missing unknown r).isEmpty = true ↔
      (∀ f ∈ s.rows, ∃ v, f.read missing r = .ok v) ∧
        ∀ k v, r.get? k = some v → (s.find? k).isSome = true := by
    rw [List.isEmpty_iff, List.eq_nil_iff_forall_not_mem]
    constructor
    · intro hnone
      refine ⟨fun f hf => ?_, fun k v hv => ?_⟩
      · cases hread : f.read missing r with
        | ok v => exact ⟨v, rfl⟩
        | error m =>
            exact absurd (mem_complaints_iff.mpr
              (Or.inl ⟨f, hf, rfl, hread⟩)) (hnone (f.key, m))
      · by_contra hunknown
        rw [Bool.not_eq_true, Option.isSome_eq_false_iff,
          Option.isNone_iff_eq_none] at hunknown
        exact hnone (k, unknown)
          (mem_complaints_iff.mpr (Or.inr ⟨rfl, hunknown, v, hv⟩))
    · rintro ⟨hread, hknown⟩ ⟨k, m⟩ hmem
      rcases mem_complaints_iff.mp hmem with
        ⟨f, hf, -, herror⟩ | ⟨-, hnone, v, hv⟩
      · obtain ⟨v, hv⟩ := hread f hf
        rw [hv] at herror
        cases herror
      · have hsome := hknown k v hv
        rw [hnone] at hsome
        cases hsome
  unfold validate
  by_cases hempty : (s.complaints missing unknown r).isEmpty = true
  · rw [if_pos hempty]
    obtain ⟨hread, hknown⟩ := hnil.mp hempty
    constructor
    · rintro ⟨⟩
      exact ⟨hread, hknown, rfl⟩
    · rintro ⟨-, -, rfl⟩
      rfl
  · rw [if_neg hempty]
    constructor
    · intro h
      cases h
    · rintro ⟨hread, hknown, -⟩
      exact absurd (hnil.mpr ⟨hread, hknown⟩) hempty

/-- The canonical record has every field of the schema, in its order. -/
theorem keys_of_validate (h : s.validate missing unknown r = .ok c) :
    c.rows.map Prod.fst = s.rows.map SchemaField.key := by
  obtain ⟨hread, -, rfl⟩ := validate_eq_ok_iff.mp h
  rw [canonical]
  dsimp only
  generalize s.rows = fs at hread
  induction fs with
  | nil => rfl
  | cons f fs ih =>
      obtain ⟨v, hv⟩ := hread f (by simp)
      rw [List.filterMap_cons, SchemaField.entry, hv]
      exact congrArg (f.key :: ·) (ih fun g hg => hread g (by simp [hg]))

/-- Under the key of a field stands what was read for it. -/
theorem get?_of_validate (h : s.validate missing unknown r = .ok c)
    {f : SchemaField κ V M} (hf : f ∈ s.rows) :
    ∃ v, f.read missing r = .ok v ∧ c.get? f.key = some v := by
  obtain ⟨hread, -, rfl⟩ := validate_eq_ok_iff.mp h
  obtain ⟨v, hv⟩ := hread f hf
  refine ⟨v, hv, Record.get?_eq_some_iff.mpr ?_⟩
  exact List.mem_filterMap.mpr ⟨f, hf, by rw [SchemaField.entry, hv]⟩

/-! ## Canonical forms -/

/-- A canonical record is its own canonical form if every check accepts the
value in it as it is; for stable fields that goes without saying. -/
theorem validate_canonical_iff {P : SchemaField κ V M → Prop}
    (hstable : ∀ f ∈ s.rows, ¬ P f → f.Stable)
    (h : s.validate missing unknown r = .ok c) :
    s.validate missing unknown c = .ok c ↔
      ∀ f ∈ s.rows, P f → ∀ v, c.get? f.key = some v → f.check v = .ok v := by
  constructor
  · intro hagain f hf _ v hv
    obtain ⟨w, hread, hget⟩ := get?_of_validate hagain hf
    obtain rfl : v = w := Option.some.inj (hv.symm.trans hget)
    rwa [SchemaField.read, hget] at hread
  intro haccepts
  have hread : ∀ f ∈ s.rows, ∃ v, f.read missing r = .ok v ∧
      f.read missing c = .ok v := by
    intro f hf
    obtain ⟨v, hv, hget⟩ := get?_of_validate h hf
    refine ⟨v, hv, ?_⟩
    rw [SchemaField.read, hget]
    by_cases hP : P f
    · exact haccepts f hf hP v hget
    · exact (hstable f hf hP).check_of_read hv
  have hkeys := keys_of_validate h
  obtain ⟨-, -, hcanonical⟩ := validate_eq_ok_iff.mp h
  refine validate_eq_ok_iff.mpr ⟨fun f hf => ?_, fun k v hv => ?_, ?_⟩
  · obtain ⟨v, -, hv⟩ := hread f hf
    exact ⟨v, hv⟩
  · have hmem := List.mem_map_of_mem (f := Prod.fst)
      (Record.get?_eq_some_iff.mp hv)
    rw [hkeys] at hmem
    obtain ⟨f, hf, rfl⟩ := List.mem_map.mp hmem
    rw [KeyedTable.find?_of_mem hf]
    rfl
  · have hentries : ∀ f ∈ s.rows,
        f.entry missing c = f.entry missing r := by
      intro f hf
      obtain ⟨v, hr, hc⟩ := hread f hf
      rw [SchemaField.entry, SchemaField.entry, hr, hc]
    conv_lhs => rw [hcanonical]
    rw [canonical, canonical]
    congr 1
    exact List.filterMap_congr fun f hf => (hentries f hf).symm

end Schema
end Support
