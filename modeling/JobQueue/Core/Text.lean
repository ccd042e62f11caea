import JobQueue.Support.Numeral
import Mathlib.Data.List.Infix

/-!
# Python text built-ins and UUIDs

Queue members are ASCII strings that the Lua script builds and the Python code
takes apart.  This module fixes the text functions both sides rely on:
`str.strip`, `str.replace`, `str.partition`, `int`, and the conversions between
a UUID and its canonical text.
-/

namespace JobQueue

open Support

/-- Text as its characters; every text that reaches Redis here is ASCII, so
comparing characters is comparing bytes. -/
abbrev Text := List Char

/-- Python's `str.strip` with a set of characters. -/
def strip (p : Char → Bool) (cs : Text) : Text :=
  ((cs.dropWhile p).reverse.dropWhile p).reverse

/-- Python's `str.replace(pat, "")`; `skip` counts the characters of a match
still to be dropped. -/
def removeAll (pat : Text) : ℕ → Text → Text
  | _, [] => []
  | skip + 1, _ :: cs => removeAll pat skip cs
  | 0, c :: cs =>
      if pat.isPrefixOf (c :: cs) then removeAll pat (pat.length - 1) cs
      else c :: removeAll pat 0 cs

/-- Python's `str.partition(":")`; `none` when the separator is missing. -/
def partitionColon : Text → Option (Text × Text)
  | [] => none
  | c :: cs =>
      if c = ':' then some ([], cs)
      else (partitionColon cs).map fun parts => (c :: parts.1, parts.2)

/-- Digits with single underscores between them, as `int` reads them. -/
def readGrouped (base : ℕ) : ℕ → Bool → Text → Option ℕ
  | acc, afterDigit, [] => if afterDigit then some acc else none
  | acc, afterDigit, c :: cs =>
      if c = '_' then
        if afterDigit then readGrouped base acc false cs else none
      else
        match readDigit base acc c with
        | some acc' => readGrouped base acc' true cs
        | none => none

/-- The sign an integer literal starts with, and the rest of it. -/
def splitSign : Text → Bool × Text
  | [] => (false, [])
  | c :: cs =>
      if c = '-' then (true, cs)
      else if c = '+' then (false, cs)
      else (false, c :: cs)

/-- The blanks of ASCII: the space, and tab to carriage return. -/
def isSpace (c : Char) : Bool :=
  c = ' ' || 9 ≤ c.toNat && c.toNat ≤ 13

def dropUnderscore : Text → Text
  | '_' :: cs => cs
  | cs => cs

/-- Drop the `0x` prefix that `int` tolerates in base 16, with the underscore
that may follow it. -/
def dropRadix (base : ℕ) : Text → Text
  | '0' :: c :: cs =>
      if base = 16 ∧ (c = 'x' ∨ c = 'X') then dropUnderscore cs
      else '0' :: c :: cs
  | cs => cs

/-- Python's `int(text, base)`; `none` stands for `ValueError`. -/
def pyInt (base : ℕ) (cs : Text) : Option ℤ :=
  let signed := splitSign (strip isSpace cs)
  (readGrouped base 0 false (dropRadix base signed.2)).map fun n =>
    if signed.1 then -(n : ℤ) else (n : ℤ)

/-! ## Texts made of digits -/

/-- Every character of the text is a digit of some base up to 16. -/
def DigitText (cs : Text) : Prop :=
  ∀ c ∈ cs, ∃ d, d < 16 ∧ c = d.digitChar

theorem DigitText.notMem {cs : Text} (h : DigitText cs) {c : Char}
    (hc : digitValue c = none) : c ∉ cs := by
  intro hmem
  obtain ⟨d, hd, rfl⟩ := h c hmem
  rw [digitValue_digitChar hd] at hc
  exact Option.some_ne_none d hc

theorem digitText_zeroPadded {base width n : ℕ} (hbase : 1 < base)
    (hle : base ≤ 16) (hwidth : 0 < width) (hn : n < base ^ width) :
    DigitText (zeroPadded base width n) := by
  intro c hc
  rw [zeroPadded_eq_fixedDigits hbase hwidth hn] at hc
  obtain ⟨d, hd, rfl⟩ := mem_fixedDigits (by omega) hc
  exact ⟨d, hd.trans_le hle, rfl⟩

theorem strip_of_forall {p : Char → Bool} {cs : Text}
    (h : ∀ c ∈ cs, p c = false) : strip p cs = cs := by
  have hdrop : ∀ ds : Text, (∀ c ∈ ds, p c = false) →
      ds.dropWhile p = ds := by
    intro ds hds
    cases ds with
    | nil => rfl
    | cons d ds => simp [hds d (by simp)]
  rw [strip, hdrop cs h, hdrop cs.reverse (by simpa using h),
    List.reverse_reverse]

theorem removeAll_of_notMem {c : Char} {pat cs : Text} (h : c ∉ cs) :
    removeAll (c :: pat) 0 cs = cs := by
  induction cs with
  | nil => rfl
  | cons d cs ih =>
      have hne : c ≠ d := fun heq => h (by simp [heq])
      have hpre : ¬ (c :: pat).isPrefixOf (d :: cs) = true := by
        simp [List.isPrefixOf, hne]
      rw [removeAll, if_neg hpre, ih (fun hmem => h (by simp [hmem]))]

theorem partitionColon_of_notMem {xs ys : Text} (h : ':' ∉ xs) :
    partitionColon (xs ++ ':' :: ys) = some (xs, ys) := by
  induction xs with
  | nil => simp [partitionColon]
  | cons x xs ih =>
      have hne : ¬ x = ':' := fun heq => h (by simp [heq])
      have hrest : ':' ∉ xs := fun hmem => h (by simp [hmem])
      simp [partitionColon, hne, ih hrest]

theorem readGrouped_of_notMem {base : ℕ} {cs : Text} (h : '_' ∉ cs)
    (acc : ℕ) (afterDigit : Bool) (hne : afterDigit = true ∨ cs ≠ []) :
    readGrouped base acc afterDigit cs =
      cs.foldlM (readDigit base) acc := by
  induction cs generalizing acc afterDigit with
  | nil =>
      have hdigit : afterDigit = true := by simpa using hne
      simp [readGrouped, hdigit]
  | cons c cs ih =>
      have hc : ¬ c = '_' := fun heq => h (by simp [heq])
      have hrest : '_' ∉ cs := fun hmem => h (by simp [hmem])
      rw [readGrouped, if_neg hc, List.foldlM_cons]
      cases readDigit base acc c with
      | none => rfl
      | some acc' => exact ih hrest acc' true (Or.inl rfl)

/-- `int` reads a nonempty text of digits as the number it denotes. -/
theorem pyInt_of_digitText {base : ℕ} {cs : Text} (h : DigitText cs)
    (hne : cs ≠ []) :
    pyInt base cs = (readDigits base cs).map fun n => (n : ℤ) := by
  have hspace : ∀ c ∈ cs, isSpace c = false := by
    intro c hc
    obtain ⟨d, hd, rfl⟩ := h c hc
    interval_cases d <;> rfl
  have hsign : splitSign cs = (false, cs) := by
    cases cs with
    | nil => rfl
    | cons c cs =>
        have hminus : ¬ c = '-' := fun heq =>
          h.notMem (c := '-') rfl (by simp [heq])
        have hplus : ¬ c = '+' := fun heq =>
          h.notMem (c := '+') rfl (by simp [heq])
        simp [splitSign, hminus, hplus]
  have hradix : dropRadix base cs = cs := by
    have hx : 'x' ∉ cs := h.notMem rfl
    have hX : 'X' ∉ cs := h.notMem rfl
    unfold dropRadix
    split
    · next c ds =>
        rw [if_neg]
        rintro ⟨-, rfl | rfl⟩
        · exact hx (by simp)
        · exact hX (by simp)
    · rfl
  rw [pyInt, strip_of_forall hspace, hsign, hradix,
    readGrouped_of_notMem (h.notMem rfl) _ _ (Or.inr hne)]
  simp [readDigits]

example : pyInt 16 "\t0x_1f\n".toList = some 31 := by decide

/-! ## UUIDs -/

/-- A UUID is a 128-bit value. -/
abbrev UUID := BitVec 128

namespace UUID

/-- The 32 hexadecimal digits of a UUID. -/
def hex (u : UUID) : Text := zeroPadded 16 32 u.toNat

/-- Python's `str(uuid)`. -/
def str (u : UUID) : Text :=
  u.hex.take 8 ++ '-' :: ((u.hex.drop 8).take 4 ++ '-' ::
    ((u.hex.drop 12).take 4 ++ '-' :: ((u.hex.drop 16).take 4 ++ '-' ::
      u.hex.drop 20)))

/-- Python's `uuid.UUID(text)`; `none` stands for `ValueError`. -/
def parse (cs : Text) : Option UUID :=
  let bare := removeAll "uuid:".toList 0 (removeAll "urn:".toList 0 cs)
  let digits := (strip (fun c => c = '{' || c = '}') bare).filter (· ≠ '-')
  if digits.length ≠ 32 then none
  else
    match pyInt 16 digits with
    | none => none
    | some n =>
        if 0 ≤ n ∧ n < 2 ^ 128 then some (BitVec.ofNat 128 n.toNat) else none

theorem toNat_lt (u : UUID) : u.toNat < 16 ^ 32 := by
  have h : u.toNat < 2 ^ 128 := u.isLt
  norm_num at h ⊢
  exact h

theorem digitText_hex (u : UUID) : DigitText u.hex :=
  digitText_zeroPadded (by decide) (by decide) (by decide) u.toNat_lt

theorem length_hex (u : UUID) : u.hex.length = 32 :=
  length_zeroPadded (by decide) (by decide) u.toNat_lt

theorem mem_str {u : UUID} {c : Char} (hc : c ∈ u.str) :
    c = '-' ∨ c ∈ u.hex := by
  simp only [str, List.mem_append, List.mem_cons] at hc
  rcases hc with hc | hc | hc | hc | hc | hc | hc | hc | hc
  all_goals first
    | exact Or.inl hc
    | exact Or.inr (List.mem_of_mem_take hc)
    | exact Or.inr (List.mem_of_mem_drop (List.mem_of_mem_take hc))
    | exact Or.inr (List.mem_of_mem_drop hc)

theorem notMem_str {u : UUID} {c : Char} (hdash : c ≠ '-')
    (hdigit : digitValue c = none) : c ∉ u.str := by
  intro hc
  rcases mem_str hc with hc | hc
  · exact hdash hc
  · exact u.digitText_hex.notMem hdigit hc

theorem filter_str (u : UUID) : u.str.filter (· ≠ '-') = u.hex := by
  have hkeep : ∀ cs : Text, cs <:+: u.hex →
      cs.filter (· ≠ '-') = cs := by
    intro cs hcs
    apply List.filter_eq_self.mpr
    intro c hc
    have hmem : c ∈ u.hex := hcs.subset hc
    have hne : c ≠ '-' := by
      rintro rfl
      exact u.digitText_hex.notMem rfl hmem
    simpa using hne
  have htake : ∀ k n : ℕ, (u.hex.drop k).take n <:+: u.hex := fun k n =>
    ((List.take_prefix n _).isInfix).trans (List.drop_suffix k _).isInfix
  rw [str, List.filter_append, hkeep _ (by simpa using htake 0 8)]
  simp only [List.filter_cons, List.filter_append, ne_eq, not_true_eq_false,
    decide_false, Bool.false_eq_true, if_false]
  rw [hkeep _ (htake 8 4), hkeep _ (htake 12 4), hkeep _ (htake 16 4),
    hkeep _ (List.drop_suffix 20 _).isInfix]
  have hjoin : ∀ k, (u.hex.drop k).take 4 ++ u.hex.drop (k + 4) =
      u.hex.drop k := by
    intro k
    rw [← List.drop_drop, List.take_append_drop]
  rw [hjoin 16, hjoin 12, hjoin 8, List.take_append_drop]

/-- Reading the canonical text of a UUID gives the UUID back. -/
theorem parse_str (u : UUID) : parse u.str = some u := by
  have hbare : removeAll "uuid:".toList 0
      (removeAll "urn:".toList 0 u.str) = u.str := by
    have hu : 'u' ∉ u.str := notMem_str (by decide) rfl
    have hurn : removeAll "urn:".toList 0 u.str = u.str :=
      removeAll_of_notMem (c := 'u') hu
    rw [hurn]
    exact removeAll_of_notMem (c := 'u') hu
  have hstrip : strip (fun c => c = '{' || c = '}') u.str = u.str := by
    apply strip_of_forall
    intro c hc
    have hopen : c ≠ '{' := by
      rintro rfl
      exact notMem_str (by decide) rfl hc
    have hclose : c ≠ '}' := by
      rintro rfl
      exact notMem_str (by decide) rfl hc
    simp [hopen, hclose]
  have hne : u.hex ≠ [] := by
    intro hnil
    have hlen := u.length_hex
    simp [hnil] at hlen
  have hread : readDigits 16 u.hex = some u.toNat :=
    readDigits_zeroPadded (by decide) le_rfl (by decide) u.toNat_lt
  have hlt : u.toNat < 2 ^ 128 := u.isLt
  simp only [parse, hbare, hstrip, filter_str, length_hex,
    pyInt_of_digitText u.digitText_hex hne, hread]
  norm_num at hlt
  simp [hlt]

theorem str_injective : Function.Injective str := by
  intro u v h
  have hparse := congrArg parse h
  rw [parse_str, parse_str] at hparse
  exact Option.some.inj hparse

end UUID
end JobQueue
