import Mathlib.Data.Char
import Mathlib.Data.List.Lex
import Mathlib.Data.Nat.Digits.Defs
import Mathlib.Tactic.IntervalCases

/-!
# Zero-padded numerals

`zeroPadded base width n` is the text a C-style format such as `%019d` or
`%032x` prints for `n`.  As long as `n` fits in `width` digits the numeral is
the fixed-width one, which can be read back exactly and whose lexicographic
order is the numeric order.
-/

namespace Support

/-- The digits of `n` in `base`, padded on the left with `0` to `width`. -/
def zeroPadded (base width n : ℕ) : List Char :=
  List.replicate (width - (Nat.toDigits base n).length) '0' ++
    Nat.toDigits base n

/-- The last `width` digits of `n` in `base`. -/
def fixedDigits (base : ℕ) : ℕ → ℕ → List Char
  | 0, _ => []
  | width + 1, n => fixedDigits base width (n / base) ++
      [(n % base).digitChar]

def digitValue (c : Char) : Option ℕ :=
  if '0' ≤ c ∧ c ≤ '9' then some (c.toNat - '0'.toNat)
  else if 'a' ≤ c ∧ c ≤ 'f' then some (c.toNat - 'a'.toNat + 10)
  else if 'A' ≤ c ∧ c ≤ 'F' then some (c.toNat - 'A'.toNat + 10)
  else none

/-- Append one digit to a number read so far. -/
def readDigit (base acc : ℕ) (c : Char) : Option ℕ :=
  match digitValue c with
  | some d => if d < base then some (acc * base + d) else none
  | none => none

/-- The number a list of digits denotes, most significant digit first. -/
def readDigits (base : ℕ) (cs : List Char) : Option ℕ :=
  cs.foldlM (readDigit base) 0

@[simp] theorem length_fixedDigits (base width n : ℕ) :
    (fixedDigits base width n).length = width := by
  induction width generalizing n with
  | zero => rfl
  | succ width ih => simp [fixedDigits, ih]

theorem fixedDigits_zero (base width : ℕ) :
    fixedDigits base width 0 = List.replicate width '0' := by
  induction width with
  | zero => rfl
  | succ width ih =>
      rw [fixedDigits, Nat.zero_div, Nat.zero_mod, ih,
        List.replicate_succ']
      rfl

/-- A numeral that fits in its width is the fixed-width one. -/
theorem zeroPadded_eq_fixedDigits {base width n : ℕ} (hbase : 1 < base)
    (hwidth : 0 < width) (hn : n < base ^ width) :
    zeroPadded base width n = fixedDigits base width n := by
  induction width generalizing n with
  | zero => omega
  | succ width ih =>
      rcases Nat.lt_or_ge n base with hlt | hge
      · rw [zeroPadded, Nat.toDigits_of_lt_base hlt, fixedDigits,
          Nat.div_eq_of_lt hlt, Nat.mod_eq_of_lt hlt, fixedDigits_zero]
        simp
      · have hpos : 0 < width := by
          by_contra hzero
          have : width = 0 := by omega
          subst this
          simp at hn
          omega
        have hdiv : n / base < base ^ width := by
          rw [Nat.div_lt_iff_lt_mul (by omega)]
          simpa [pow_succ] using hn
        rw [fixedDigits, ← ih hpos hdiv, zeroPadded, zeroPadded,
          Nat.toDigits_of_base_le hbase hge]
        simp [List.append_assoc]

theorem length_zeroPadded {base width n : ℕ} (hbase : 1 < base)
    (hwidth : 0 < width) (hn : n < base ^ width) :
    (zeroPadded base width n).length = width := by
  rw [zeroPadded_eq_fixedDigits hbase hwidth hn, length_fixedDigits]

theorem digitValue_digitChar {d : ℕ} (hd : d < 16) :
    digitValue d.digitChar = some d := by
  interval_cases d <;> rfl

/-- Fixed-width digits are read back modulo the width. -/
theorem readDigits_fixedDigits {base : ℕ} (hpos : 0 < base)
    (hbase : base ≤ 16) (width n : ℕ) :
    readDigits base (fixedDigits base width n) =
      some (n % base ^ width) := by
  induction width generalizing n with
  | zero => simp [fixedDigits, readDigits, Nat.mod_one]
  | succ width ih =>
      have hd : n % base < base := Nat.mod_lt _ hpos
      have hread := ih (n / base)
      rw [readDigits] at hread
      rw [fixedDigits, readDigits, List.foldlM_append, hread]
      simp only [Option.bind_eq_bind, Option.bind_some, List.foldlM_cons,
        List.foldlM_nil, readDigit,
        digitValue_digitChar (lt_of_lt_of_le hd hbase), if_pos hd]
      rw [pow_succ', Nat.mod_mul, Nat.mul_comm, Nat.add_comm]
      rfl

/-- Printing and reading a numeral that fits in its width is the identity. -/
theorem readDigits_zeroPadded {base width n : ℕ} (hbase : 1 < base)
    (hle : base ≤ 16) (hwidth : 0 < width) (hn : n < base ^ width) :
    readDigits base (zeroPadded base width n) = some n := by
  rw [zeroPadded_eq_fixedDigits hbase hwidth hn,
    readDigits_fixedDigits (by omega) hle, Nat.mod_eq_of_lt hn]

theorem mem_fixedDigits {base width n : ℕ} (hpos : 0 < base) {c : Char}
    (hc : c ∈ fixedDigits base width n) :
    ∃ d, d < base ∧ c = d.digitChar := by
  induction width generalizing n with
  | zero => simp [fixedDigits] at hc
  | succ width ih =>
      rw [fixedDigits, List.mem_append, List.mem_singleton] at hc
      rcases hc with hc | rfl
      · exact ih hc
      · exact ⟨n % base, Nat.mod_lt _ hpos, rfl⟩

/-! ## Lexicographic order -/

/-- Lists of equal length compare as their first difference does, whatever
follows. -/
theorem append_lt_append_of_lt {α : Type*} [LinearOrder α]
    {xs ys : List α} (hlen : xs.length = ys.length) (h : xs < ys)
    (us vs : List α) : xs ++ us < ys ++ vs := by
  induction xs generalizing ys with
  | nil =>
      cases ys with
      | nil => exact absurd h (lt_irrefl _)
      | cons y ys => simp at hlen
  | cons x xs ih =>
      cases ys with
      | nil => simp at hlen
      | cons y ys =>
          rw [List.cons_lt_cons_iff] at h
          rw [List.cons_append, List.cons_append, List.cons_lt_cons_iff]
          rcases h with h | ⟨rfl, h⟩
          · exact Or.inl h
          · exact Or.inr ⟨rfl, ih (by simpa using hlen) h⟩

theorem digitChar_lt_digitChar {d e : ℕ} (h : d < e) (he : e < 16) :
    d.digitChar < e.digitChar := by
  interval_cases e <;> interval_cases d <;> decide

theorem fixedDigits_lt_fixedDigits {base width n m : ℕ} (hpos : 0 < base)
    (hbase : base ≤ 16) (hm : m < base ^ width) (h : n < m) :
    fixedDigits base width n < fixedDigits base width m := by
  induction width generalizing n m with
  | zero =>
      simp at hm
      omega
  | succ width ih =>
      have hdiv : m / base < base ^ width := by
        rw [Nat.div_lt_iff_lt_mul hpos]
        simpa [pow_succ] using hm
      rw [fixedDigits, fixedDigits]
      rcases lt_or_eq_of_le (Nat.div_le_div_right h.le : n / base ≤ m / base)
        with hlt | heq
      · have hlen : (fixedDigits base width (n / base)).length =
            (fixedDigits base width (m / base)).length := by simp
        exact append_lt_append_of_lt hlen (ih hdiv hlt) _ _
      · have hmod : n % base < m % base := by
          have hn := Nat.div_add_mod n base
          have hm' := Nat.div_add_mod m base
          rw [heq] at hn
          omega
        rw [heq]
        apply List.append_left_lt
        rw [List.cons_lt_cons_iff]
        exact Or.inl (digitChar_lt_digitChar hmod
          (lt_of_lt_of_le (Nat.mod_lt _ hpos) hbase))

/-- Zero-padded numerals of one width compare as the numbers do. -/
theorem zeroPadded_lt_zeroPadded {base width n m : ℕ} (hbase : 1 < base)
    (hle : base ≤ 16) (hwidth : 0 < width) (hm : m < base ^ width)
    (h : n < m) : zeroPadded base width n < zeroPadded base width m := by
  rw [zeroPadded_eq_fixedDigits hbase hwidth (h.trans hm),
    zeroPadded_eq_fixedDigits hbase hwidth hm]
  exact fixedDigits_lt_fixedDigits (by omega) hle hm h

end Support
