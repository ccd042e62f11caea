import JobQueue.Support.FloatingPoint
import JobQueue.Lifecycle.Progress

/-!
# The progress reporter

A handler reports how many of its items it has processed; the reporter of the
runner turns this into a percentage, with one floating-point division and one
multiplication, and stores it under the fence.  The percentage of a handler
that goes through its items in order never goes back, stays in the range of
the column, is within one of the exact value, and is 100 exactly at the end.
-/

namespace JobQueue

open Support

/-! ## Percentages -/

/-- Python's `float` keeps 53 binary digits. -/
def float (x : ℚ) : ℚ := roundSignificand 53 x

/-- `int(x)` drops the fractional part. -/
def truncate (x : ℚ) : ℤ := if 0 ≤ x then ⌊x⌋ else ⌈x⌉

/-- `int(processed / total * 100) if total else 100`. -/
def progressPercentage (processed total : ℤ) : ℤ :=
  if total ≠ 0 then truncate (float (float (processed / total) * 100)) else 100

theorem float_mono {x y : ℚ} (hx : 0 ≤ x) (h : x ≤ y) : float x ≤ float y :=
  roundSignificand_mono (by norm_num) hx h

theorem float_nonneg {x : ℚ} (hx : 0 ≤ x) : 0 ≤ float x :=
  roundSignificand_nonneg 53 hx

theorem float_intCast {n : ℤ} (h : |n| < 2 ^ 53) : float n = n :=
  (representable_intCast h).roundSignificand_eq

section Percentage

variable {processed later total : ℤ}

theorem quotient_nonneg (hp : 0 ≤ processed) (ht : 0 < total) :
    (0 : ℚ) ≤ processed / total :=
  div_nonneg (by exact_mod_cast hp) (by exact_mod_cast ht.le)

theorem progressPercentage_eq (hp : 0 ≤ processed) (ht : 0 < total) :
    progressPercentage processed total =
      ⌊float (float (processed / total) * 100)⌋ := by
  have hquot := float_nonneg (quotient_nonneg hp ht)
  rw [progressPercentage, if_pos ht.ne', truncate,
    if_pos (float_nonneg (mul_nonneg hquot (by norm_num)))]

/-- A handler that gets on is shown with a percentage that does not fall. -/
theorem progressPercentage_mono (hp : 0 ≤ processed) (ht : 0 < total)
    (h : processed ≤ later) :
    progressPercentage processed total ≤ progressPercentage later total := by
  rw [progressPercentage_eq hp ht, progressPercentage_eq (hp.trans h) ht]
  have htotal : (0 : ℚ) < total := by exact_mod_cast ht
  have hquot : (processed : ℚ) / total ≤ later / total :=
    div_le_div_of_nonneg_right (by exact_mod_cast h) htotal.le
  have hfloat := float_mono (quotient_nonneg hp ht) hquot
  refine Int.floor_le_floor (float_mono ?_ ?_)
  · exact mul_nonneg (float_nonneg (quotient_nonneg hp ht)) (by norm_num)
  · exact mul_le_mul_of_nonneg_right hfloat (by norm_num)

theorem progressPercentage_nonneg (hp : 0 ≤ processed) (ht : 0 < total) :
    0 ≤ progressPercentage processed total := by
  rw [progressPercentage_eq hp ht, Int.floor_nonneg]
  exact float_nonneg
    (mul_nonneg (float_nonneg (quotient_nonneg hp ht)) (by norm_num))

theorem progressPercentage_self (ht : 0 < total) :
    progressPercentage total total = 100 := by
  have htotal : (total : ℚ) ≠ 0 := by exact_mod_cast ht.ne'
  have hone : float 1 = 1 := by exact_mod_cast @float_intCast 1 (by norm_num)
  have hhundred : float 100 = 100 := by
    exact_mod_cast @float_intCast 100 (by norm_num)
  rw [progressPercentage_eq ht.le ht, div_self htotal, hone, one_mul, hhundred]
  norm_num

theorem progressPercentage_le (hp : 0 ≤ processed) (ht : 0 < total)
    (h : processed ≤ total) : progressPercentage processed total ≤ 100 :=
  (progressPercentage_mono hp ht h).trans (progressPercentage_self ht).le

theorem clampProgress_progressPercentage (hp : 0 ≤ processed) (ht : 0 < total)
    (h : processed ≤ total) :
    clampProgress (progressPercentage processed total) =
      progressPercentage processed total := by
  have hnonneg := progressPercentage_nonneg hp ht
  have hle := progressPercentage_le hp ht h
  unfold clampProgress
  omega

/-- The two roundings together move the value by less than one. -/
theorem abs_float_quotient_sub_le (hp : 0 ≤ processed) (ht : 0 < total)
    (h : processed ≤ total) :
    |float (float (processed / total) * 100) - processed / total * 100| ≤
      201 / 2 ^ 53 := by
  have hquot := quotient_nonneg hp ht
  have hone : (processed : ℚ) / total ≤ 1 := by
    rw [div_le_one (by exact_mod_cast ht)]
    exact_mod_cast h
  have hfirst := abs_roundSignificand_sub_le 53 ((processed : ℚ) / total)
  have hsecond := abs_roundSignificand_sub_le 53
    (float ((processed : ℚ) / total) * 100)
  rw [abs_of_nonneg hquot] at hfirst
  rw [abs_of_nonneg (mul_nonneg (float_nonneg hquot) (by norm_num))]
    at hsecond
  change |float ((processed : ℚ) / total) - processed / total| ≤ _ at hfirst
  change |float (float ((processed : ℚ) / total) * 100) -
    float ((processed : ℚ) / total) * 100| ≤ _ at hsecond
  rw [abs_le] at hfirst hsecond ⊢
  generalize float (float ((processed : ℚ) / total) * 100) = shown at *
  generalize float ((processed : ℚ) / total) = rounded at *
  generalize (processed : ℚ) / total = exact at *
  constructor <;> linarith [hfirst.1, hfirst.2, hsecond.1, hsecond.2]

/-- A batch that fits into memory is shown with its exact percentage rounded
down; only where that is a whole number can it be one less. -/
theorem progressPercentage_exact (hp : 0 ≤ processed) (ht : 0 < total)
    (h : processed ≤ total) (hbound : total ≤ 2 ^ 45) :
    progressPercentage processed total = processed * 100 / total ∨
      total ∣ processed * 100 ∧
        progressPercentage processed total = processed * 100 / total - 1 := by
  have htotal : (0 : ℚ) < total := by exact_mod_cast ht
  have hbound' : (total : ℚ) ≤ 2 ^ 45 := by exact_mod_cast hbound
  -- the roundings move the value by less than a fraction over `total` can
  have hsmall : (201 : ℚ) / 2 ^ 53 * total < 1 := by
    calc (201 : ℚ) / 2 ^ 53 * total ≤ 201 / 2 ^ 53 * 2 ^ 45 :=
          mul_le_mul_of_nonneg_left hbound' (by norm_num)
      _ < 1 := by norm_num
  have herror := abs_float_quotient_sub_le hp ht h
  rw [abs_le] at herror
  rw [progressPercentage_eq hp ht]
  generalize float (float ((processed : ℚ) / total) * 100) = shown at *
  have hdiv := Int.mul_ediv_add_emod (processed * 100) total
  have hmod := Int.emod_nonneg (processed * 100) ht.ne'
  have hlt := Int.emod_lt_of_pos (processed * 100) ht
  have hexact : (processed : ℚ) / total * 100 * total = processed * 100 := by
    field_simp
  have hcast : (total : ℚ) * (processed * 100 / total : ℤ) +
      (processed * 100 % total : ℤ) = processed * 100 := by
    exact_mod_cast hdiv
  generalize processed * 100 / total = q at *
  have hupper : shown < q + 1 := by
    have hnext : ((processed * 100 % total : ℤ) : ℚ) ≤ total - 1 := by
      have hle : processed * 100 % total ≤ total - 1 := by omega
      exact_mod_cast hle
    have hmul : shown * total < (q + 1) * total := by
      have hle : shown * total ≤ processed * 100 + 201 / 2 ^ 53 * total := by
        rw [← hexact, ← add_mul]
        exact mul_le_mul_of_nonneg_right (by linarith [herror.2]) htotal.le
      linarith
    exact lt_of_mul_lt_mul_right hmul htotal.le
  have hlower : processed * 100 - 201 / 2 ^ 53 * total ≤ shown * total := by
    rw [← hexact, ← sub_mul]
    exact mul_le_mul_of_nonneg_right (by linarith [herror.1]) htotal.le
  by_cases hwhole : processed * 100 % total = 0
  · have hprev : (q : ℚ) - 1 ≤ shown := by
      have hmul : ((q : ℚ) - 1) * total ≤ shown * total := by
        rw [hwhole] at hcast
        push_cast at hcast
        linarith
      exact le_of_mul_le_mul_right hmul htotal
    have hfloor : q - 1 ≤ ⌊shown⌋ := Int.le_floor.mpr (by exact_mod_cast hprev)
    have hfloor' : ⌊shown⌋ < q + 1 := Int.floor_lt.mpr (by exact_mod_cast hupper)
    have hdvd := Int.dvd_of_emod_eq_zero hwhole
    rcases Int.le_iff_eq_or_lt.mp hfloor with heq | hgt
    · exact Or.inr ⟨hdvd, heq.symm⟩
    · exact Or.inl (by omega)
  · left
    have hone : (1 : ℚ) ≤ (processed * 100 % total : ℤ) := by
      have hle : 1 ≤ processed * 100 % total := by omega
      exact_mod_cast hle
    have hge : (q : ℚ) ≤ shown := by
      have hmul : (q : ℚ) * total ≤ shown * total := by linarith
      exact le_of_mul_le_mul_right hmul htotal
    rw [Int.floor_eq_iff]
    exact ⟨hge, hupper⟩

/-- The second kind of value occurs: 29 of 100 items are shown as 28. -/
example : progressPercentage 29 100 = 28 := by decide +kernel

/-- A batch that fits into memory is shown as complete only when it is. -/
theorem progressPercentage_eq_hundred_iff (hp : 0 ≤ processed) (ht : 0 < total)
    (h : processed ≤ total) (hbound : total ≤ 2 ^ 45) :
    progressPercentage processed total = 100 ↔ processed = total := by
  constructor
  · intro hshown
    by_contra hne
    have hdiv : processed * 100 / total < 100 := by
      rw [Int.ediv_lt_iff_lt_mul ht]
      omega
    rcases progressPercentage_exact hp ht h hbound with heq | ⟨-, heq⟩
    · omega
    · omega
  · rintro rfl
    exact progressPercentage_self ht

/-- Whatever the size of the batch, the percentage is at most one off. -/
theorem progressPercentage_close (hp : 0 ≤ processed) (ht : 0 < total)
    (h : processed ≤ total) :
    processed * 100 / total - 1 ≤ progressPercentage processed total ∧
      progressPercentage processed total ≤ processed * 100 / total + 1 := by
  have hquot : processed * 100 / total =
      ⌊(processed : ℚ) / total * 100⌋ := by
    obtain ⟨n, rfl⟩ := Int.eq_ofNat_of_zero_le ht.le
    have hfloor := Rat.floor_intCast_div_natCast (processed * 100) n
    push_cast at hfloor ⊢
    rw [div_mul_eq_mul_div]
    exact hfloor.symm
  have herror := abs_float_quotient_sub_le hp ht h
  rw [abs_le] at herror
  rw [progressPercentage_eq hp ht, hquot]
  generalize float (float ((processed : ℚ) / total) * 100) = shown at *
  generalize (processed : ℚ) / total * 100 = exact at *
  have hlower : ⌊exact - 1⌋ ≤ ⌊shown⌋ :=
    Int.floor_le_floor (by linarith [herror.1])
  have hupper : ⌊shown⌋ ≤ ⌊exact + 1⌋ :=
    Int.floor_le_floor (by linarith [herror.2])
  rw [Int.floor_sub_one] at hlower
  rw [Int.floor_add_one] at hupper
  exact ⟨hlower, hupper⟩

end Percentage

/-- The percentages of a batch do not fall from report to report, lie between
0 and 100 and within one of the exact value.  For every batch that fits into
memory they are the exact value rounded down, except that a whole number may
be shown one less, and 100 is shown exactly when all items are processed. -/
theorem progress_percentage_is_accurate {processed later total : ℤ}
    (hp : 0 ≤ processed) (hlater : processed ≤ later) (h : later ≤ total)
    (ht : 0 < total) :
    progressPercentage processed total ≤ progressPercentage later total ∧
      0 ≤ progressPercentage processed total ∧
      progressPercentage later total ≤ 100 ∧
      |progressPercentage later total - later * 100 / total| ≤ 1 ∧
      (total ≤ 2 ^ 45 →
        (progressPercentage later total = later * 100 / total ∨
          total ∣ later * 100 ∧
            progressPercentage later total = later * 100 / total - 1) ∧
        (progressPercentage later total = 100 ↔ later = total)) := by
  have hp' := hp.trans hlater
  obtain ⟨hlower, hupper⟩ := progressPercentage_close hp' ht h
  refine ⟨progressPercentage_mono hp ht hlater,
    progressPercentage_nonneg hp ht, progressPercentage_le hp' ht h, ?_,
    fun hbound => ⟨progressPercentage_exact hp' ht h hbound,
      progressPercentage_eq_hundred_iff hp' ht h hbound⟩⟩
  rw [abs_le]
  omega

/-- From 28 to 29 of 100 items. -/
theorem percentage_of_29_items :
    progressPercentage 28 100 ≤ progressPercentage 29 100 ∧
      (29 : ℤ) ≤ 100 ∧
      (progressPercentage 29 100 = 100 ↔ (29 : ℤ) = 100) := by
  obtain ⟨hmono, -, -, -, hsmall⟩ := progress_percentage_is_accurate
    (show (0 : ℤ) ≤ 28 by decide) (show (28 : ℤ) ≤ 29 by decide)
    (show (29 : ℤ) ≤ 100 by decide) (by decide)
  exact ⟨hmono, by decide, (hsmall (by decide)).2⟩

end JobQueue
