/-!
# Double-precision numbers

Finite IEEE 754 doubles as exact values `± mant · 2 ^ exp`, with the one rounding rule behind every
operation: to the nearest double, a tie going to the even significand.
-/

namespace AccessControl

/-- The finite double `± mant · 2 ^ exp`. -/
structure Binary64 where
  neg : Bool
  mant : Nat
  exp : Int
  deriving DecidableEq, Repr

namespace Binary64

/-- The smallest exponent; below it the significand loses digits instead. -/
def minExp : Int := -1074

/-- The largest exponent of a finite double. -/
def maxExp : Int := 971

def zero (neg : Bool) : Binary64 := ⟨neg, 0, minExp⟩

instance : Inhabited Binary64 := ⟨zero false⟩

def isZero (x : Binary64) : Bool := x.mant == 0

/-- `num / den` to the nearest whole number, a tie going to the even one. -/
def roundDiv (num den : Nat) : Nat :=
  let q := num / den
  let r := num % den
  if 2 * r < den then q else if den < 2 * r then q + 1 else if q % 2 = 0 then q else q + 1

theorem roundDiv_near {num den : Nat} (h : 0 < den) :
    2 * num ≤ 2 * (roundDiv num den * den) + den ∧
      2 * (roundDiv num den * den) ≤ 2 * num + den := by
  have hdm := Nat.div_add_mod num den
  have hlt := Nat.mod_lt num h
  have hmul : (num / den + 1) * den = den * (num / den) + den := by
    rw [Nat.add_mul, Nat.mul_comm, Nat.one_mul]
  have hmul' : num / den * den = den * (num / den) := Nat.mul_comm _ _
  unfold roundDiv
  simp only
  split
  · rw [hmul']; omega
  · split
    · rw [hmul]; omega
    · split
      · rw [hmul']; omega
      · rw [hmul]; omega

/-- `num · 2 ^ (- e) / den`, rounded as `roundDiv` does. -/
def roundScaled (num den : Nat) (e : Int) : Nat :=
  if 0 ≤ e then roundDiv num (den * Nat.pow 2 e.toNat) else roundDiv (num * Nat.pow 2 (-e).toNat) den

/-- The exponent that gives `num / den` a significand of 53 bits. -/
def scaleOf (num den : Nat) : Int :=
  let e : Int := (Nat.log2 num : Int) - Nat.log2 den - 52
  let unit := Nat.pow 2 52
  let low := if 0 ≤ e then num < den * unit * Nat.pow 2 e.toNat
    else num * Nat.pow 2 (-e).toNat < den * unit
  max minExp (if low then e - 1 else e)

/-- The double nearest to `± num / den`; `none` when it would be infinite. -/
def ofRatio? (neg : Bool) (num den : Nat) : Option Binary64 :=
  if num = 0 then some (zero neg) else
  let e := scaleOf num den
  let m := roundScaled num den e
  let (m, e) := if m = Nat.pow 2 53 then (Nat.pow 2 52, e + 1) else (m, e)
  if maxExp < e then none else some ⟨neg, m, e⟩

/-- The double nearest to `± num · 2 ^ e / den`. -/
def ofScaled? (neg : Bool) (num den : Nat) (e : Int) : Option Binary64 :=
  if 0 ≤ e then ofRatio? neg (num * Nat.pow 2 e.toNat) den
  else ofRatio? neg num (den * Nat.pow 2 (-e).toNat)

/-- The double nearest to a whole number; a number too large for a double gives zero. -/
def ofInt (n : Int) : Binary64 := (ofRatio? (n < 0) n.natAbs 1).getD (zero false)

/-- The rounded product, `none` when it would be infinite. -/
def mul? (x y : Binary64) : Option Binary64 :=
  ofScaled? (x.neg != y.neg) (x.mant * y.mant) 1 (x.exp + y.exp)

/-- The rounded quotient, `none` when it would be infinite or the divisor is zero. -/
def div? (x y : Binary64) : Option Binary64 :=
  if y.mant = 0 then none else ofScaled? (x.neg != y.neg) x.mant y.mant (x.exp - y.exp)

def negate (x : Binary64) : Binary64 := { x with neg := !x.neg }

/-- `x` as a multiple of `2 ^ e`, for an `e` that is at most its exponent. -/
def unitsOf (e : Int) (x : Binary64) : Int :=
  let n : Int := (x.mant * Nat.pow 2 (x.exp - e).toNat : Nat)
  if x.neg then -n else n

/-- The order of the two values; the two zeros are equal. -/
def cmp (x y : Binary64) : Ordering :=
  let e := min x.exp y.exp
  compare (x.unitsOf e) (y.unitsOf e)

/-- Ten to the power `n`, rounded. -/
def pow10 (n : Nat) : Binary64 := (ofRatio? false (Nat.pow 10 n) 1).getD (zero false)

/-- `significand · 10 ^ e` as decimal literals are read: the significand is rounded first, then
multiplied or divided by a rounded power of ten. A power beyond `10 ^ 308` is divided off in two
steps, after which nothing is left below `10 ^ -616`. `none` when the result would be infinite. -/
def ofDecimal? (neg : Bool) (significand : Nat) (e : Int) : Option Binary64 := do
  let f ← ofRatio? neg significand 1
  if f.isZero then return f
  if 0 ≤ e then
    if e ≤ 308 then f.mul? (pow10 e.toNat) else none
  else if -308 ≤ e then f.div? (pow10 (-e).toNat)
  else if -616 ≤ e then
    let g ← f.div? (pow10 308)
    g.div? (pow10 (-e - 308).toNat)
  else return zero neg

end Binary64

end AccessControl
