import Mathlib

/-!
# Rounding to doubles

A double is a whole number of at most 53 bits times a power of two. `round` takes a rational
number to the nearest one, and of two that are as near to the one whose last bit is zero, as
IEEE 754 has it. Overflow is left out: numbers beyond the largest double are rounded as if
exponents went on.

Doubles are not a type here but rational numbers, and an operation on doubles is the operation on
rational numbers, rounded. That is what the standard asks of sums and products, so programs that
only multiply and compare can be stated with it. What they mostly need is that rounding is monotone
across whole numbers of moderate size: a whole number below `2 ^ 53` is a double, so no number on
one side of it is rounded to the other side.

- `roundEven`, `round`: the nearest whole number, the nearest double;
- `le_round`, `round_le`: up to `2 ^ 53` rounding does not lead past a whole number;
- `round_natCast`: and so leaves whole numbers alone.
-/

namespace WptFyi.Lib.Float64

/-- The nearest whole number, of two the even one. -/
def roundEven (y : ℚ) : ℤ :=
  if y - ⌊y⌋ < 1 / 2 then ⌊y⌋
  else if 1 / 2 < y - ⌊y⌋ then ⌊y⌋ + 1
  else if ⌊y⌋ % 2 = 0 then ⌊y⌋ else ⌊y⌋ + 1

/-- The exponent of the last bit of a double near `x`. -/
def lastBit (x : ℚ) : ℤ := max (Int.log 2 |x| - 52) (-1074)

/-- The nearest double. -/
def round (x : ℚ) : ℚ := roundEven (x / 2 ^ lastBit x) * 2 ^ lastBit x

/-! ## Whole numbers -/

theorem le_roundEven {m : ℤ} {y : ℚ} (h : (m : ℚ) ≤ y) : m ≤ roundEven y := by
  have hfloor : m ≤ ⌊y⌋ := Int.le_floor.mpr h
  unfold roundEven
  split_ifs <;> omega

/-- Rounding does not go past a whole number. -/
theorem roundEven_le {m : ℤ} {y : ℚ} (h : y ≤ m) : roundEven y ≤ m := by
  have hfloor : ⌊y⌋ ≤ m := Int.floor_le_iff.mpr (lt_of_le_of_lt h (by simp))
  -- a number that is rounded up is not whole
  have hup : ¬ y - ⌊y⌋ < 1 / 2 → ⌊y⌋ + 1 ≤ m := by
    intro hhalf
    refine Int.add_one_le_iff.mpr (lt_of_le_of_ne hfloor fun heq => hhalf ?_)
    have hy : y = ⌊y⌋ := le_antisymm (by rw [heq]; exact h) (Int.floor_le y)
    have hzero : y - ⌊y⌋ = 0 := sub_eq_zero.mpr hy
    rw [hzero]
    norm_num
  unfold roundEven
  split_ifs with h₁ h₂ h₃
  · exact hfloor
  · exact hup h₁
  · exact hfloor
  · exact hup h₁

theorem lastBit_nonpos {x : ℚ} (h : |x| < 2 ^ 53) : lastBit x ≤ 0 := by
  refine max_le ?_ (by norm_num)
  rcases eq_or_ne x 0 with rfl | hx
  · simp
  · have hlog : Int.log 2 |x| < 53 := by
      refine (Int.lt_zpow_iff_log_lt (by norm_num) (abs_pos.mpr hx)).mp ?_
      exact_mod_cast h
    omega

/-- Whole numbers are multiples of a last bit behind the point. -/
theorem exists_mul_lastBit {x : ℚ} (h : |x| < 2 ^ 53) (m : ℤ) :
    ∃ k : ℤ, (m : ℚ) = k * 2 ^ lastBit x := by
  obtain ⟨e, he⟩ := Int.eq_ofNat_of_zero_le (neg_nonneg.mpr (lastBit_nonpos h))
  refine ⟨m * 2 ^ e, ?_⟩
  have hlast : lastBit x = -(e : ℤ) := by omega
  rw [hlast, zpow_neg, zpow_natCast]
  push_cast
  field_simp

theorem le_round {m : ℤ} {x : ℚ} (hx : |x| < 2 ^ 53) (h : (m : ℚ) ≤ x) : (m : ℚ) ≤ round x := by
  obtain ⟨k, hk⟩ := exists_mul_lastBit hx m
  have hpos : (0 : ℚ) < 2 ^ lastBit x := zpow_pos (by norm_num) _
  have hle : (k : ℚ) ≤ x / 2 ^ lastBit x := (le_div_iff₀ hpos).mpr (hk ▸ h)
  rw [hk]
  exact mul_le_mul_of_nonneg_right (by exact_mod_cast le_roundEven hle) hpos.le

theorem round_le {m : ℤ} {x : ℚ} (hx : |x| < 2 ^ 53) (h : x ≤ m) : round x ≤ m := by
  obtain ⟨k, hk⟩ := exists_mul_lastBit hx m
  have hpos : (0 : ℚ) < 2 ^ lastBit x := zpow_pos (by norm_num) _
  have hle : x / 2 ^ lastBit x ≤ (k : ℚ) := (div_le_iff₀ hpos).mpr (hk ▸ h)
  rw [hk]
  exact mul_le_mul_of_nonneg_right (by exact_mod_cast roundEven_le hle) hpos.le

theorem round_natCast {n : ℕ} (h : n < 2 ^ 53) : round n = n := by
  have habs : |(n : ℚ)| < 2 ^ 53 := by
    rw [abs_of_nonneg (Nat.cast_nonneg n)]
    exact_mod_cast h
  refine le_antisymm ?_ ?_
  · exact_mod_cast round_le (m := n) habs (by simp)
  · exact_mod_cast le_round (m := n) habs (by simp)

end WptFyi.Lib.Float64
