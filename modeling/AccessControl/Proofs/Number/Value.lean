import AccessControl.Number.Binary64
import Mathlib.Algebra.Order.Field.Basic
import Mathlib.Data.Rat.Cast.Order

/-!
# The value of a double

The order of doubles is that of the numbers that they stand for (`cmp_eq_lt`, `cmp_eq_gt`), and
doubles are equal where these are, the two zeros among them (`cmp_eq_eq`).
-/

namespace AccessControl.Binary64

/-- The significand with its sign. -/
def significand (x : Binary64) : Int := if x.neg then -x.mant else x.mant

/-- The number `± mant · 2 ^ exp`. -/
def value (x : Binary64) : ℚ := x.significand * 2 ^ x.exp

variable {x y : Binary64}

theorem value_eq_units {e : Int} (h : e ≤ x.exp) : x.value = x.unitsOf e * 2 ^ e := by
  obtain ⟨n, hn⟩ := Int.eq_ofNat_of_zero_le (Int.sub_nonneg.2 h)
  have hexp : x.exp = n + e := by omega
  have hpow : (2 : ℚ) ^ x.exp = 2 ^ n * 2 ^ e := by
    rw [hexp, zpow_add₀ two_ne_zero, zpow_natCast]
  have hunits : x.unitsOf e = x.significand * 2 ^ n := by
    simp only [unitsOf, significand, hn, Int.toNat_natCast, Nat.pow_eq]
    split <;> simp
  rw [value, hpow, hunits, Int.cast_mul, mul_assoc]
  norm_cast

/-- Two doubles are compared as multiples of one power of two. -/
theorem cmp_spec (x y : Binary64) : ∃ a b e : Int, x.value = a * 2 ^ e ∧ y.value = b * 2 ^ e ∧
    x.cmp y = compare a b :=
  ⟨_, _, min x.exp y.exp, value_eq_units (min_le_left _ _), value_eq_units (min_le_right _ _), rfl⟩

theorem cmp_eq_lt : x.cmp y = .lt ↔ x.value < y.value := by
  obtain ⟨a, b, e, ha, hb, hcmp⟩ := cmp_spec x y
  have hpos : (0 : ℚ) < 2 ^ e := zpow_pos two_pos e
  rw [hcmp, ha, hb, compare_lt_iff_lt, mul_lt_mul_iff_left₀ hpos, Int.cast_lt]

theorem cmp_eq_gt : x.cmp y = .gt ↔ y.value < x.value := by
  obtain ⟨a, b, e, ha, hb, hcmp⟩ := cmp_spec x y
  have hpos : (0 : ℚ) < 2 ^ e := zpow_pos two_pos e
  rw [hcmp, ha, hb, compare_gt_iff_gt, mul_lt_mul_iff_left₀ hpos, Int.cast_lt]

theorem cmp_eq_eq : x.cmp y = .eq ↔ x.value = y.value := by
  obtain ⟨a, b, e, ha, hb, hcmp⟩ := cmp_spec x y
  have hne : (2 : ℚ) ^ e ≠ 0 := zpow_ne_zero e two_ne_zero
  rw [hcmp, ha, hb, compare_eq_iff_eq, mul_left_inj' hne, Int.cast_inj]

theorem cmp_congr {x' y' : Binary64} (hx : x.value = x'.value) (hy : y.value = y'.value) :
    x.cmp y = x'.cmp y' := by
  rcases lt_trichotomy x.value y.value with h | h | h
  · rw [cmp_eq_lt.2 h, cmp_eq_lt.2 (hx ▸ hy ▸ h)]
  · rw [cmp_eq_eq.2 h, cmp_eq_eq.2 (hx ▸ hy ▸ h)]
  · rw [cmp_eq_gt.2 h, cmp_eq_gt.2 (hx ▸ hy ▸ h)]

end AccessControl.Binary64
