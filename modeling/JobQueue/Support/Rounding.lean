import Mathlib.Algebra.Order.Ring.Nat
import Mathlib.Data.Nat.ModEq

/-!
# Rounding natural numbers to a binary precision

`roundToMultiple unit n` is the multiple of `unit` nearest to `n`, the even one
of two equally near ones.  `roundToPrecision p n` keeps the `p` leading binary
digits of `n` in this way, which is how a floating-point format with `p`
significant digits stores an integer.  Rounding is monotone, fixes exactly the
numbers that the precision represents, and never passes a power of two.
-/

namespace Support

/-- The multiple of `unit` nearest to `n`, ties to the even multiple. -/
def roundToMultiple (unit n : ℕ) : ℕ :=
  if n % unit * 2 < unit ∨ n % unit * 2 = unit ∧ n / unit % 2 = 0 then
    n / unit * unit
  else (n / unit + 1) * unit

/-- The number with at most `p` significant binary digits nearest to `n`. -/
def roundToPrecision (p n : ℕ) : ℕ :=
  roundToMultiple (2 ^ (Nat.log2 n + 1 - p)) n

section Multiple

variable {unit n m : ℕ}

theorem le_roundToMultiple : n / unit * unit ≤ roundToMultiple unit n := by
  unfold roundToMultiple
  split
  · exact le_rfl
  · exact Nat.mul_le_mul_right unit (Nat.le_succ _)

theorem roundToMultiple_le : roundToMultiple unit n ≤ (n / unit + 1) * unit := by
  unfold roundToMultiple
  split
  · exact Nat.mul_le_mul_right unit (Nat.le_succ _)
  · exact le_rfl

theorem roundToMultiple_mono (unit : ℕ) (h : n ≤ m) :
    roundToMultiple unit n ≤ roundToMultiple unit m := by
  rcases lt_or_eq_of_le (Nat.div_le_div_right h : n / unit ≤ m / unit) with
    hlt | heq
  · calc roundToMultiple unit n ≤ (n / unit + 1) * unit := roundToMultiple_le
      _ ≤ m / unit * unit := Nat.mul_le_mul_right unit hlt
      _ ≤ roundToMultiple unit m := le_roundToMultiple
  · have hmod : n % unit ≤ m % unit := by
      have hn := Nat.div_add_mod n unit
      have hm := Nat.div_add_mod m unit
      rw [heq] at hn
      omega
    unfold roundToMultiple
    rw [heq]
    split
    · split
      · exact le_rfl
      · exact Nat.mul_le_mul_right unit (Nat.le_succ _)
    · next hup =>
        rw [if_neg]
        omega

theorem roundToMultiple_eq_self_iff (hunit : 0 < unit) :
    roundToMultiple unit n = n ↔ unit ∣ n := by
  have hn := Nat.div_add_mod n unit
  have hcomm := Nat.mul_comm unit (n / unit)
  have hlt := Nat.mod_lt n hunit
  constructor
  · intro h
    rw [roundToMultiple] at h
    split at h
    · exact ⟨n / unit, by omega⟩
    · rw [Nat.add_mul, Nat.one_mul] at h
      omega
  · intro h
    have hzero : n % unit = 0 := Nat.mod_eq_zero_of_dvd h
    rw [roundToMultiple, hzero, if_pos (Or.inl (by omega))]
    omega

/-- Rounding does not pass a multiple of the unit from below. -/
theorem roundToMultiple_le_of_dvd (hunit : 0 < unit) (hm : unit ∣ m)
    (h : n ≤ m) : roundToMultiple unit n ≤ m := by
  have hmono := roundToMultiple_mono unit h
  rwa [(roundToMultiple_eq_self_iff hunit).mpr hm] at hmono

/-- Nor from above. -/
theorem le_roundToMultiple_of_dvd (hunit : 0 < unit) (hm : unit ∣ m)
    (h : m ≤ n) : m ≤ roundToMultiple unit n := by
  have hmono := roundToMultiple_mono unit h
  rwa [(roundToMultiple_eq_self_iff hunit).mpr hm] at hmono

end Multiple

section Precision

variable {p n m k : ℕ}

theorem roundToPrecision_eq_self_iff :
    roundToPrecision p n = n ↔ 2 ^ (Nat.log2 n + 1 - p) ∣ n :=
  roundToMultiple_eq_self_iff (Nat.two_pow_pos _)

theorem roundToPrecision_of_lt (h : n < 2 ^ p) : roundToPrecision p n = n := by
  rw [roundToPrecision_eq_self_iff]
  rcases Nat.eq_zero_or_pos n with rfl | hpos
  · exact dvd_zero _
  · have hlog : Nat.log2 n < p := (Nat.log2_lt hpos.ne').mpr h
    have hzero : Nat.log2 n + 1 - p = 0 := by omega
    rw [hzero]
    exact one_dvd n

/-- Rounding does not pass a power of two from below. -/
theorem roundToPrecision_le_two_pow (p : ℕ) (h : n < 2 ^ k) :
    roundToPrecision p n ≤ 2 ^ k := by
  rcases Nat.eq_zero_or_pos n with rfl | hpos
  · rw [roundToPrecision_eq_self_iff.mpr (dvd_zero _)]
    exact Nat.zero_le _
  · have hlog : Nat.log2 n < k := (Nat.log2_lt hpos.ne').mpr h
    exact roundToMultiple_le_of_dvd (Nat.two_pow_pos _)
      (pow_dvd_pow 2 (by omega)) h.le

theorem roundToPrecision_mono (hp : 0 < p) (h : n ≤ m) :
    roundToPrecision p n ≤ roundToPrecision p m := by
  rcases Nat.eq_zero_or_pos n with rfl | hpos
  · rw [roundToPrecision_eq_self_iff.mpr (dvd_zero _)]
    exact Nat.zero_le _
  · have hm : m ≠ 0 := by omega
    have hlog : Nat.log2 n ≤ Nat.log2 m :=
      (Nat.le_log2 hm).mpr ((Nat.log2_self_le hpos.ne').trans h)
    rcases lt_or_eq_of_le hlog with hlt | heq
    · calc roundToPrecision p n ≤ 2 ^ (Nat.log2 n + 1) :=
            roundToPrecision_le_two_pow p Nat.lt_log2_self
        _ ≤ 2 ^ Nat.log2 m := Nat.pow_le_pow_right (by decide) hlt
        _ ≤ roundToPrecision p m :=
            le_roundToMultiple_of_dvd (Nat.two_pow_pos _)
              (pow_dvd_pow 2 (by omega)) (Nat.log2_self_le hm)
    · rw [roundToPrecision, roundToPrecision, heq]
      exact roundToMultiple_mono _ h

end Precision

end Support
