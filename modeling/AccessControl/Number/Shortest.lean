import AccessControl.Number.Binary64

/-!
# The shortest decimal that reads back

For a double, the decimal with the fewest digits among those that round to it, and of these the
nearest to it. Everything is scaled to whole numbers, so the search is exact.
-/

namespace AccessControl.Binary64

/-- `digits · 10 ^ exp`. -/
structure Decimal where
  digits : Nat
  exp : Int
  deriving DecidableEq, Repr

/-- All bounds below are whole multiples of `2 ^ -1076 · 10 ^ -345`. -/
def decimalScale : Nat := 345

/-- The numbers that round to a double, in scaled units; the ends count iff `closed`. -/
structure Interval where
  low : Nat
  mid : Nat
  high : Nat
  closed : Bool

/-- The numbers that round to `m · 2 ^ e`: half way to the neighbours, of which the lower one is
nearer when `m` is the smallest significand. -/
def interval (m : Nat) (e : Int) : Interval :=
  let unit := Nat.pow 2 (e + 1076 - 2).toNat * Nat.pow 10 decimalScale
  let below := if m = Nat.pow 2 52 ∧ e ≠ minExp then 1 else 2
  { low := (4 * m - below) * unit, mid := 4 * m * unit, high := (4 * m + 2) * unit
    closed := m % 2 == 0 }

/-- `10 ^ k` in scaled units. -/
def decimalUnit (k : Int) : Nat := Nat.pow 2 1076 * Nat.pow 10 (k + decimalScale).toNat

def Interval.contains (i : Interval) (v : Nat) : Bool :=
  if i.closed then i.low ≤ v && v ≤ i.high else i.low < v && v < i.high

/-- The multiple of `10 ^ k` in the interval that is nearest to its middle, a tie going to the even
digit. -/
def Interval.onGrid? (i : Interval) (k : Int) : Option Decimal :=
  let u := decimalUnit k
  let d := i.mid / u
  let below := i.mid - d * u
  let above := (d + 1) * u - i.mid
  match i.contains (d * u), i.contains ((d + 1) * u) with
  | true, false => some ⟨d, k⟩
  | false, true => some ⟨d + 1, k⟩
  | true, true =>
    some ⟨if below < above then d else if above < below then d + 1
      else if d % 2 = 0 then d else d + 1, k⟩
  | false, false => none

/-- The first hit on the grids `10 ^ k`, `10 ^ (k - 1)`, …. -/
def Interval.firstGrid (i : Interval) (k : Int) : Nat → Option Decimal
  | 0 => none
  | n + 1 => match i.onGrid? k with
    | some d => some d
    | none => i.firstGrid (k - 1) n

/-- The fewest digits that read back as `m · 2 ^ e`, which is not zero. Nineteen grids below the
first power of ten above the value always suffice. -/
def shortest (m : Nat) (e : Int) : Decimal :=
  let i := interval m e
  let top : Int := ((Nat.repr (i.high / Nat.pow 2 1076)).length : Int) - decimalScale
  (i.firstGrid top 20).getD ⟨0, 0⟩

/-- The decimal text: positional from `10 ^ -5` up to `10 ^ 16`, else with an exponent; a whole
number keeps one zero after the point. -/
def text (x : Binary64) : String :=
  let sign := if x.neg then "-" else ""
  if x.isZero then sign ++ "0.0" else
  let d := shortest x.mant x.exp
  let ds := (Nat.repr d.digits).toList
  let n : Int := ds.length
  let point := n + d.exp
  let body :=
    if 0 ≤ d.exp ∧ point ≤ 16 then
      String.ofList (ds ++ List.replicate d.exp.toNat '0') ++ ".0"
    else if 0 < point ∧ point ≤ 16 then
      String.ofList (ds.take point.toNat) ++ "." ++ String.ofList (ds.drop point.toNat)
    else if -5 < point ∧ point ≤ 0 then
      "0." ++ String.ofList (List.replicate (-point).toNat '0' ++ ds)
    else
      let mantissa := match ds with
        | [] => ""
        | [c] => String.ofList [c]
        | c :: cs => String.ofList (c :: '.' :: cs)
      mantissa ++ (if 0 < point then "e+" else "e") ++ toString (point - 1)
  sign ++ body

end AccessControl.Binary64
