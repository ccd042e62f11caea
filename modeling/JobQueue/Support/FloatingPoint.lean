import Mathlib.Algebra.Order.Round
import Mathlib.Data.Int.Log
import Mathlib.Data.Rat.Floor
import Mathlib.Algebra.Ring.Int.Parity
import Mathlib.Tactic.FieldSimp
import Mathlib.Tactic.Linarith
import Mathlib.Tactic.Positivity
import Mathlib.Tactic.NormNum

/-!
# Floating-point rounding of rational numbers

A floating-point operation returns the exact result rounded to a significand
of `p` binary digits: the nearest such number, and of two equally near ones
the one with the even significand.  The exponent is unbounded here, so that
nothing overflows or loses digits near zero.  Rounding is monotone, fixes the
numbers of the format, and moves a number by at most one part in `2 ^ p`.
-/

namespace Support

/-! ## Integers -/

/-- The integer nearest to `x`, the even one of two equally near ones. -/
def roundEven (x : ℚ) : ℤ :=
  if Int.fract x < 1 / 2 ∨ Int.fract x = 1 / 2 ∧ Even ⌊x⌋ then ⌊x⌋ else ⌊x⌋ + 1

theorem floor_le_roundEven (x : ℚ) : ⌊x⌋ ≤ roundEven x := by
  unfold roundEven
  split
  · exact le_rfl
  · exact (lt_add_one _).le

theorem roundEven_le_floor_add_one (x : ℚ) : roundEven x ≤ ⌊x⌋ + 1 := by
  unfold roundEven
  split
  · exact (lt_add_one _).le
  · exact le_rfl

theorem abs_roundEven_sub_le (x : ℚ) : |(roundEven x : ℚ) - x| ≤ 1 / 2 := by
  have hfract := Int.self_sub_floor x
  have hnonneg := Int.fract_nonneg x
  have hlt := Int.fract_lt_one x
  unfold roundEven
  rw [abs_le]
  split
  · next h =>
      have hle : Int.fract x ≤ 1 / 2 := by
        rcases h with h | ⟨h, -⟩
        · exact h.le
        · exact h.le
      constructor <;> linarith
  · next h =>
      rw [not_or] at h
      have hge := not_lt.mp h.1
      push_cast
      constructor <;> linarith

@[simp] theorem roundEven_intCast (n : ℤ) : roundEven n = n := by
  have hfract : Int.fract (n : ℚ) < 1 / 2 := by
    rw [Int.fract_intCast]
    norm_num
  rw [roundEven, if_pos (Or.inl hfract), Int.floor_intCast]

theorem roundEven_mono {x y : ℚ} (h : x ≤ y) : roundEven x ≤ roundEven y := by
  rcases lt_or_eq_of_le (Int.floor_le_floor h) with hlt | heq
  · calc roundEven x ≤ ⌊x⌋ + 1 := roundEven_le_floor_add_one x
      _ ≤ ⌊y⌋ := hlt
      _ ≤ roundEven y := floor_le_roundEven y
  · have hfract : Int.fract x ≤ Int.fract y := by
      rw [← Int.self_sub_floor, ← Int.self_sub_floor, heq]
      linarith
    unfold roundEven
    rw [heq]
    split
    · split
      · exact le_rfl
      · exact (lt_add_one _).le
    · next hup =>
        rw [if_neg]
        rintro (hy | ⟨hy, heven⟩)
        · exact hup (Or.inl (hfract.trans_lt hy))
        · rcases lt_or_eq_of_le (hfract.trans hy.le) with hx | hx
          · exact hup (Or.inl hx)
          · exact hup (Or.inr ⟨hx, heven⟩)

/-! ## Significands -/

/-- The unit in the last place of a number with a significand of `p` binary
digits. -/
def ulp (p : ℕ) (x : ℚ) : ℚ := 2 ^ (Int.log 2 |x| + 1 - p)

/-- The number with a significand of `p` binary digits nearest to `x`. -/
def roundSignificand (p : ℕ) (x : ℚ) : ℚ := roundEven (x / ulp p x) * ulp p x

section Significand

variable {p : ℕ} {x y z : ℚ}

theorem ulp_pos (p : ℕ) (x : ℚ) : 0 < ulp p x :=
  zpow_pos (by norm_num) _

@[simp] theorem roundSignificand_zero (p : ℕ) : roundSignificand p 0 = 0 := by
  have hzero : roundEven 0 = 0 := roundEven_intCast 0
  simp [roundSignificand, hzero]

/-- Rounding moves a number by at most half a unit. -/
theorem abs_roundSignificand_sub_le_ulp (p : ℕ) (x : ℚ) :
    |roundSignificand p x - x| ≤ ulp p x / 2 := by
  have hulp := ulp_pos p x
  have hsplit : roundSignificand p x - x =
      (roundEven (x / ulp p x) - x / ulp p x) * ulp p x := by
    rw [roundSignificand, sub_mul, div_mul_cancel₀ x hulp.ne']
  rw [hsplit, abs_mul, abs_of_pos hulp]
  calc |(roundEven (x / ulp p x) : ℚ) - x / ulp p x| * ulp p x
      ≤ 1 / 2 * ulp p x :=
        mul_le_mul_of_nonneg_right (abs_roundEven_sub_le _) hulp.le
    _ = ulp p x / 2 := by ring

theorem ulp_le (p : ℕ) (hx : x ≠ 0) : ulp p x ≤ |x| * (2 / 2 ^ p) := by
  have hlog : (2 : ℚ) ^ Int.log 2 |x| ≤ |x| := by
    exact_mod_cast Int.zpow_log_le_self one_lt_two (abs_pos.mpr hx)
  have hsplit : ulp p x = 2 ^ Int.log 2 |x| * (2 / 2 ^ p) := by
    rw [ulp, zpow_sub₀ two_ne_zero, zpow_add₀ two_ne_zero, zpow_one,
      zpow_natCast, mul_div_assoc]
  rw [hsplit]
  exact mul_le_mul_of_nonneg_right hlog (by positivity)

/-- Rounding moves a number by at most one part in `2 ^ p`. -/
theorem abs_roundSignificand_sub_le (p : ℕ) (x : ℚ) :
    |roundSignificand p x - x| ≤ |x| / 2 ^ p := by
  rcases eq_or_ne x 0 with rfl | hx
  · simp
  · have hhalf := abs_roundSignificand_sub_le_ulp p x
    have hulp := ulp_le p hx
    calc |roundSignificand p x - x| ≤ ulp p x / 2 := hhalf
      _ ≤ |x| * (2 / 2 ^ p) / 2 := by linarith
      _ = |x| / 2 ^ p := by ring

/-- The number has a significand of `p` binary digits. -/
def Representable (p : ℕ) (x : ℚ) : Prop :=
  ∃ k e : ℤ, |k| < 2 ^ p ∧ x = k * 2 ^ e

theorem representable_intCast {n : ℤ} (h : |n| < 2 ^ p) :
    Representable p n :=
  ⟨n, 0, h, by simp⟩

theorem Representable.roundSignificand_eq (h : Representable p x) :
    roundSignificand p x = x := by
  rcases eq_or_ne x 0 with rfl | hx
  · exact roundSignificand_zero p
  · obtain ⟨k, e, hk, heq⟩ := h
    have hlt : |x| < 2 ^ (p + e : ℤ) := by
      rw [heq, abs_mul, abs_of_pos (zpow_pos (by norm_num : (0 : ℚ) < 2) e),
        zpow_add₀ two_ne_zero]
      refine mul_lt_mul_of_pos_right ?_ (zpow_pos (by norm_num) e)
      rw [zpow_natCast]
      exact_mod_cast hk
    have hlog : Int.log 2 |x| < p + e :=
      (Int.lt_zpow_iff_log_lt one_lt_two (abs_pos.mpr hx)).mp
        (by exact_mod_cast hlt)
    obtain ⟨d, hd⟩ := Int.eq_ofNat_of_zero_le
      (by omega : 0 ≤ e - (Int.log 2 |x| + 1 - p))
    have hquot : x / ulp p x = ((k * 2 ^ d : ℤ) : ℚ) := by
      rw [div_eq_iff (ulp_pos p x).ne', ulp, heq]
      have hexp : e = d + (Int.log 2 |x| + 1 - p) := by omega
      conv_lhs => rw [hexp]
      rw [zpow_add₀ two_ne_zero, zpow_natCast, heq]
      push_cast
      ring
    rw [roundSignificand, hquot, roundEven_intCast, ← hquot,
      div_mul_cancel₀ x (ulp_pos p x).ne']

theorem roundSignificand_nonneg (p : ℕ) (hx : 0 ≤ x) :
    0 ≤ roundSignificand p x := by
  have hzero : (0 : ℤ) ≤ roundEven (x / ulp p x) := by
    calc (0 : ℤ) = roundEven 0 := (roundEven_intCast 0).symm
      _ ≤ _ := roundEven_mono (div_nonneg hx (ulp_pos p x).le)
  exact mul_nonneg (by exact_mod_cast hzero) (ulp_pos p x).le

/-- Rounding does not pass the next power of two. -/
theorem roundSignificand_le_zpow (p : ℕ) (hx : 0 < x) :
    roundSignificand p x ≤ 2 ^ (Int.log 2 x + 1) := by
  have hlt : x < 2 ^ (Int.log 2 x + 1) := by
    exact_mod_cast Int.lt_zpow_succ_log_self one_lt_two x
  have hulp : ulp p x * 2 ^ p = 2 ^ (Int.log 2 x + 1) := by
    rw [ulp, abs_of_pos hx, ← zpow_natCast, ← zpow_add₀ two_ne_zero]
    congr 1
    ring
  have hquot : x / ulp p x ≤ ((2 ^ p : ℤ) : ℚ) := by
    rw [div_le_iff₀ (ulp_pos p x), mul_comm]
    push_cast
    rw [hulp]
    exact hlt.le
  have hround : roundEven (x / ulp p x) ≤ 2 ^ p := by
    have hmono := roundEven_mono hquot
    rwa [roundEven_intCast] at hmono
  calc roundSignificand p x
      ≤ ((2 ^ p : ℤ) : ℚ) * ulp p x :=
        mul_le_mul_of_nonneg_right (by exact_mod_cast hround) (ulp_pos p x).le
    _ = 2 ^ (Int.log 2 x + 1) := by
        rw [mul_comm]
        push_cast
        exact hulp

/-- Nor the one below. -/
theorem zpow_le_roundSignificand (hp : 0 < p) (hx : 0 < x) :
    2 ^ Int.log 2 x ≤ roundSignificand p x := by
  have hle : (2 : ℚ) ^ Int.log 2 x ≤ x := by
    exact_mod_cast Int.zpow_log_le_self one_lt_two hx
  have hulp : ulp p x * 2 ^ (p - 1) = 2 ^ Int.log 2 x := by
    rw [ulp, abs_of_pos hx, ← zpow_natCast, ← zpow_add₀ two_ne_zero]
    congr 1
    omega
  have hquot : ((2 ^ (p - 1) : ℤ) : ℚ) ≤ x / ulp p x := by
    rw [le_div_iff₀ (ulp_pos p x), mul_comm]
    push_cast
    rw [hulp]
    exact hle
  have hround : 2 ^ (p - 1) ≤ roundEven (x / ulp p x) := by
    have hmono := roundEven_mono hquot
    rwa [roundEven_intCast] at hmono
  calc (2 : ℚ) ^ Int.log 2 x = ((2 ^ (p - 1) : ℤ) : ℚ) * ulp p x := by
        rw [← hulp, mul_comm]
        push_cast
        rfl
    _ ≤ roundSignificand p x :=
        mul_le_mul_of_nonneg_right (by exact_mod_cast hround) (ulp_pos p x).le

theorem roundSignificand_mono (hp : 0 < p) (hx : 0 ≤ x) (h : x ≤ y) :
    roundSignificand p x ≤ roundSignificand p y := by
  rcases hx.eq_or_lt with rfl | hx
  · rw [roundSignificand_zero]
    exact roundSignificand_nonneg p h
  · have hy := hx.trans_le h
    have hlog : Int.log 2 x ≤ Int.log 2 y := Int.log_mono_right hx h
    rcases hlog.lt_or_eq with hlt | heq
    · calc roundSignificand p x ≤ 2 ^ (Int.log 2 x + 1) :=
            roundSignificand_le_zpow p hx
        _ ≤ 2 ^ Int.log 2 y := zpow_le_zpow_right₀ one_le_two hlt
        _ ≤ roundSignificand p y := zpow_le_roundSignificand hp hy
    · have hulp : ulp p x = ulp p y := by
        rw [ulp, ulp, abs_of_pos hx, abs_of_pos hy, heq]
      rw [roundSignificand, roundSignificand, hulp]
      refine mul_le_mul_of_nonneg_right ?_ (ulp_pos p y).le
      exact_mod_cast roundEven_mono
        (div_le_div_of_nonneg_right h (ulp_pos p y).le)

end Significand

end Support
