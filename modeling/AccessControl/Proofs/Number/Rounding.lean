import AccessControl.Proofs.Number.Value
import Mathlib.Tactic.Ring

/-!
# Whole numbers as doubles

A whole number of 64 bits is taken to the double `nearest` it (`value_ofInt`): whole numbers below
`2 ^ 53` are doubles themselves (`rounded_of_le`), and no other one is moved by more than 1024
(`rounded_near`). Rounding keeps the order (`rounded_mono`), but it may take different numbers to one
double; such numbers lie far from zero and close together (`rounded_apart`). The order of the doubles
is therefore that of the numbers wherever the doubles differ (`cmp_ofInt`).
-/

namespace AccessControl.Binary64

/-! ### Rounded quotients -/

variable {m n den : Nat}

theorem roundDiv_cases (num den : Nat) :
    roundDiv num den = num / den ∧ 2 * (num % den) ≤ den ∨
      roundDiv num den = num / den + 1 ∧ den ≤ 2 * (num % den) := by
  simp only [roundDiv]
  split
  · exact .inl ⟨rfl, by omega⟩
  · split
    · exact .inr ⟨rfl, by omega⟩
    · split
      · exact .inl ⟨rfl, by omega⟩
      · exact .inr ⟨rfl, by omega⟩

theorem roundDiv_mono (h : m ≤ n) : roundDiv m den ≤ roundDiv n den := by
  rcases Nat.lt_or_ge (m / den) (n / den) with hlt | hge
  · rcases roundDiv_cases m den with ⟨hm, -⟩ | ⟨hm, -⟩ <;>
      rcases roundDiv_cases n den with ⟨hn, -⟩ | ⟨hn, -⟩ <;> omega
  · -- with one quotient the remainders are in order, and so are their roundings
    have hquot : m / den = n / den := Nat.le_antisymm (Nat.div_le_div_right h) hge
    have hrem : m % den ≤ n % den := by
      have hm := Nat.div_add_mod m den
      have hn := Nat.div_add_mod n den
      rw [hquot] at hm
      omega
    simp only [roundDiv, hquot]
    grind

theorem roundDiv_mul (a : Nat) (h : 0 < den) : roundDiv (a * den) den = a := by
  simp [roundDiv, Nat.mul_div_cancel _ h, h]

theorem le_roundDiv {a : Nat} (hden : 0 < den) (h : a * den ≤ n) : a ≤ roundDiv n den := by
  calc a = roundDiv (a * den) den := (roundDiv_mul a hden).symm
    _ ≤ roundDiv n den := roundDiv_mono h

theorem roundDiv_le {a : Nat} (hden : 0 < den) (h : n ≤ a * den) : roundDiv n den ≤ a := by
  calc roundDiv n den ≤ roundDiv (a * den) den := roundDiv_mono h
    _ = a := roundDiv_mul a hden

/-! ### The nearest double -/

/-- How many binary digits of `n` a double has no room for. -/
def spare (n : Nat) : Nat := n.log2 - 52

/-- `n` rounded to 53 binary digits. -/
def nearest (n : Nat) : Nat := roundDiv n (2 ^ spare n) * 2 ^ spare n

theorem spare_le {k : Nat} (h : n < 2 ^ (53 + k)) : spare n ≤ k := by
  rcases Nat.eq_zero_or_pos n with rfl | hn
  · simp [spare]
  · have hlog := (Nat.log2_lt hn.ne').2 h
    unfold spare
    omega

theorem le_nearest_of_dvd (hdvd : 2 ^ spare n ∣ m) (h : m ≤ n) : m ≤ nearest n := by
  obtain ⟨a, rfl⟩ := hdvd
  rw [mul_comm] at h ⊢
  exact Nat.mul_le_mul_right _ (le_roundDiv (Nat.two_pow_pos _) h)

theorem nearest_le_of_dvd (hdvd : 2 ^ spare n ∣ m) (h : n ≤ m) : nearest n ≤ m := by
  obtain ⟨a, rfl⟩ := hdvd
  rw [mul_comm] at h ⊢
  exact Nat.mul_le_mul_right _ (roundDiv_le (Nat.two_pow_pos _) h)

/-- A number with enough zeros at its end is a double. -/
theorem nearest_of_dvd (h : 2 ^ spare n ∣ n) : nearest n = n :=
  Nat.le_antisymm (nearest_le_of_dvd h le_rfl) (le_nearest_of_dvd h le_rfl)

theorem nearest_of_le (h : n ≤ 2 ^ 53) : nearest n = n := by
  refine nearest_of_dvd ?_
  rcases h.lt_or_eq with hlt | rfl
  · rw [Nat.le_zero.1 (spare_le hlt)]
    exact one_dvd n
  · rw [spare, Nat.log2_two_pow]
    exact pow_dvd_pow 2 (by decide)

/-- Rounding stays between two powers of two. -/
theorem pow_le_nearest (h : n ≠ 0) : 2 ^ n.log2 ≤ nearest n :=
  le_nearest_of_dvd (pow_dvd_pow 2 (Nat.sub_le _ _)) (Nat.log2_self_le h)

theorem nearest_le_pow (n : Nat) : nearest n ≤ 2 ^ (n.log2 + 1) :=
  nearest_le_of_dvd (pow_dvd_pow 2 ((Nat.sub_le _ _).trans (Nat.le_succ _))) Nat.lt_log2_self.le

theorem nearest_mono (h : m ≤ n) : nearest m ≤ nearest n := by
  rcases Nat.eq_zero_or_pos m with rfl | hm
  · exact Nat.zero_le _
  have hn : n ≠ 0 := (hm.trans_le h).ne'
  have hlog : m.log2 ≤ n.log2 := (Nat.le_log2 hn).2 ((Nat.log2_self_le hm.ne').trans h)
  rcases hlog.lt_or_eq with hlt | heq
  · calc nearest m ≤ 2 ^ (m.log2 + 1) := nearest_le_pow m
      _ ≤ 2 ^ n.log2 := Nat.pow_le_pow_right two_pos hlt
      _ ≤ nearest n := pow_le_nearest hn
  · have hspare : spare m = spare n := by rw [spare, spare, heq]
    rw [nearest, nearest, hspare]
    exact Nat.mul_le_mul_right _ (roundDiv_mono h)

/-- A number is moved by half of what there is no room for, at most. -/
theorem nearest_near (n : Nat) :
    2 * n ≤ 2 * nearest n + 2 ^ spare n ∧ 2 * nearest n ≤ 2 * n + 2 ^ spare n :=
  roundDiv_near (Nat.two_pow_pos _)

/-! ### The double of a whole number -/

theorem scaleOf_one (h : n ≠ 0) : scaleOf n 1 = (n.log2 : Int) - 52 := by
  have hlow : ¬ (if 0 ≤ (n.log2 : Int) - 52 then n < 2 ^ 52 * 2 ^ ((n.log2 : Int) - 52).toNat
      else n * 2 ^ (-((n.log2 : Int) - 52)).toNat < 2 ^ 52) := by
    have hle := Nat.log2_self_le h
    split
    · next he =>
      have hpow : 2 ^ 52 * 2 ^ ((n.log2 : Int) - 52).toNat = 2 ^ n.log2 := by
        rw [← pow_add]
        congr 1
        omega
      omega
    · next he =>
      have hpow : 2 ^ n.log2 * 2 ^ (-((n.log2 : Int) - 52)).toNat = 2 ^ 52 := by
        rw [← pow_add]
        congr 1
        omega
      have hmul := Nat.mul_le_mul_right (2 ^ (-((n.log2 : Int) - 52)).toNat) hle
      omega
  have hone : Nat.log2 1 = 0 := by decide
  simp only [scaleOf, hone, Nat.cast_zero, sub_zero, one_mul, Nat.pow_eq, if_neg hlow, minExp]
  omega

theorem roundScaled_one (h : n ≠ 0) :
    (roundScaled n 1 (scaleOf n 1) : ℚ) * 2 ^ scaleOf n 1 = nearest n := by
  rw [scaleOf_one h]
  rcases Nat.lt_or_ge n.log2 52 with hlt | hge
  · obtain ⟨k, hk⟩ := Nat.exists_eq_add_of_lt hlt
    have hscale : (n.log2 : Int) - 52 = -((k + 1 : Nat) : Int) := by omega
    have hscaled : roundScaled n 1 (-((k + 1 : Nat) : Int)) = n * 2 ^ (k + 1) := by
      rw [roundScaled, if_neg (by omega), neg_neg, Int.toNat_natCast, Nat.pow_eq]
      simpa using roundDiv_mul (n * 2 ^ (k + 1)) one_pos
    have hexact : nearest n = n := by
      rw [nearest, spare, Nat.sub_eq_zero_of_le hlt.le, pow_zero, mul_one]
      simpa using roundDiv_mul n one_pos
    rw [hscale, hscaled, hexact, zpow_neg, zpow_natCast, Nat.cast_mul, Nat.cast_pow, Nat.cast_ofNat,
      mul_assoc, mul_inv_cancel₀ (pow_ne_zero _ two_ne_zero), mul_one]
  · have hscale : (n.log2 : Int) - 52 = (spare n : Int) := by rw [spare, Nat.cast_sub hge]; rfl
    have hscaled : roundScaled n 1 (spare n : Int) = roundDiv n (2 ^ spare n) := by
      rw [roundScaled, if_pos (by omega), Int.toNat_natCast, Nat.pow_eq, one_mul]
    rw [hscale, hscaled, zpow_natCast, nearest]
    norm_cast

theorem value_eq (x : Binary64) :
    x.value = (if x.neg then -1 else 1) * ((x.mant : ℚ) * 2 ^ x.exp) := by
  unfold value significand
  split <;> simp

/-- A whole number of 64 bits has a double, with its sign and of the size nearest to it. -/
theorem ofRatio?_one (neg : Bool) (h : n ≠ 0) (hlt : n < 2 ^ 64) :
    ∃ x, ofRatio? neg n 1 = some x ∧ x.value = (if neg then -1 else 1) * (nearest n : ℚ) := by
  have hexp : scaleOf n 1 ≤ 11 := by
    have hlog := (Nat.log2_lt h).2 hlt
    rw [scaleOf_one h]
    omega
  have hvalue := roundScaled_one h
  simp only [ofRatio?, if_neg h, Nat.pow_eq, maxExp]
  generalize scaleOf n 1 = e at hexp hvalue ⊢
  -- a significand of `2 ^ 53` is written as half of it with the next exponent
  split
  · next hm =>
    rw [if_neg (by omega)]
    refine ⟨_, rfl, ?_⟩
    rw [value_eq, ← hvalue, hm, zpow_add_one₀ two_ne_zero]
    push_cast
    ring
  · rw [if_neg (by omega)]
    refine ⟨_, rfl, ?_⟩
    rw [value_eq, ← hvalue]

/-- What a whole number is rounded to. -/
def rounded (a : Int) : Int := a.sign * nearest a.natAbs

theorem value_ofInt {a : Int} (h : a.natAbs < 2 ^ 64) : (ofInt a).value = rounded a := by
  rcases eq_or_ne a 0 with rfl | ha
  · simp [ofInt, ofRatio?, zero, value, significand, rounded]
  · obtain ⟨x, hx, hvalue⟩ := ofRatio?_one (a < 0) (Int.natAbs_ne_zero.2 ha) h
    rw [ofInt, hx, Option.getD_some, hvalue, rounded]
    rcases ha.lt_or_gt with hneg | hpos
    · simp [hneg, Int.sign_eq_neg_one_of_neg hneg]
    · simp [hpos.not_gt, Int.sign_eq_one_of_pos hpos]

/-! ### Order and distance -/

variable {a b : Int}

theorem rounded_neg (a : Int) : rounded (-a) = -rounded a := by
  simp [rounded]

theorem rounded_of_nonneg (h : 0 ≤ a) : rounded a = nearest a.natAbs := by
  rcases h.eq_or_lt with rfl | hpos
  · rfl
  · rw [rounded, Int.sign_eq_one_of_pos hpos, one_mul]

theorem rounded_of_nonpos (h : a ≤ 0) : rounded a = -(nearest a.natAbs : Int) := by
  have hneg := rounded_of_nonneg (a := -a) (by omega)
  rw [rounded_neg, Int.natAbs_neg] at hneg
  omega

/-- Rounding keeps the order, also across zero. -/
theorem rounded_mono (h : a ≤ b) : rounded a ≤ rounded b := by
  rcases le_total 0 a with ha | ha
  · rw [rounded_of_nonneg ha, rounded_of_nonneg (ha.trans h)]
    exact_mod_cast nearest_mono (by omega)
  · rcases le_total 0 b with hb | hb
    · rw [rounded_of_nonpos ha, rounded_of_nonneg hb]
      omega
    · rw [rounded_of_nonpos ha, rounded_of_nonpos hb, neg_le_neg_iff]
      exact_mod_cast nearest_mono (by omega)

theorem rounded_of_le (h : a.natAbs ≤ 2 ^ 53) : rounded a = a := by
  rw [rounded, nearest_of_le h, Int.sign_mul_natAbs]

theorem rounded_near (h : a.natAbs < 2 ^ 64) : |rounded a - a| ≤ 1024 := by
  obtain ⟨hlow, hhigh⟩ := nearest_near a.natAbs
  have hspare : 2 ^ spare a.natAbs ≤ 2 ^ 11 := Nat.pow_le_pow_right two_pos (spare_le h)
  rw [rounded, abs_le]
  rcases lt_trichotomy a 0 with ha | rfl | ha
  · rw [Int.sign_eq_neg_one_of_neg ha]
    omega
  · simp
  · rw [Int.sign_eq_one_of_pos ha]
    omega

/-- Below `2 ^ 53` no other number is rounded to what a number is rounded to. -/
theorem le_natAbs_of_rounded_eq (hab : a ≠ b) (h : rounded a = rounded b) : 2 ^ 53 ≤ a.natAbs := by
  by_contra hlt
  have ha : rounded a = a := rounded_of_le (by omega)
  have hupper : rounded (2 ^ 53) = 2 ^ 53 := rounded_of_le (by decide)
  have hlower : rounded (-2 ^ 53) = -2 ^ 53 := rounded_of_le (by decide)
  rcases Nat.lt_or_ge (2 ^ 53) b.natAbs with hb | hb
  · -- a number far out is rounded to one at least as far out as `2 ^ 53`, on its side
    rcases le_total 0 b with hsign | hsign
    · have hmono := rounded_mono (a := 2 ^ 53) (b := b) (by omega)
      omega
    · have hmono := rounded_mono (a := b) (b := -2 ^ 53) (by omega)
      omega
  · exact hab (by rw [← ha, h, rounded_of_le hb])

/-- Different numbers that are rounded alike lie far from zero and close together. -/
theorem rounded_apart (ha : a.natAbs < 2 ^ 64) (hb : b.natAbs < 2 ^ 64) (hab : a ≠ b)
    (h : rounded a = rounded b) :
    2 ^ 53 ≤ a.natAbs ∧ 2 ^ 53 ≤ b.natAbs ∧ (a - b).natAbs ≤ 2048 := by
  have hneara := abs_le.1 (rounded_near ha)
  have hnearb := abs_le.1 (rounded_near hb)
  exact ⟨le_natAbs_of_rounded_eq hab h, le_natAbs_of_rounded_eq hab.symm h.symm, by omega⟩

/-- Doubles of whole numbers are in the order of the numbers, where they are not the same. -/
theorem cmp_ofInt (ha : a.natAbs < 2 ^ 64) (hb : b.natAbs < 2 ^ 64) :
    (ofInt a).cmp (ofInt b) = if rounded a = rounded b then .eq else compare a b := by
  split
  · next h => rw [cmp_eq_eq, value_ofInt ha, value_ofInt hb, h]
  · next h =>
    rcases lt_trichotomy a b with hlt | rfl | hgt
    · rw [compare_lt_iff_lt.2 hlt, cmp_eq_lt, value_ofInt ha, value_ofInt hb, Int.cast_lt]
      exact (rounded_mono hlt.le).lt_of_ne h
    · exact absurd rfl h
    · rw [compare_gt_iff_gt.2 hgt, cmp_eq_gt, value_ofInt ha, value_ofInt hb, Int.cast_lt]
      exact (rounded_mono hgt.le).lt_of_ne (Ne.symm h)

end AccessControl.Binary64
