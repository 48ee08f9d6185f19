import AccessControl.Json.Basic
import AccessControl.Number.Digits

/-!
# Numerals

The parts of a JSON number literal and the value they stand for. A literal without fraction and
exponent is a whole number if it fits 64 bits, with or without sign; `-0` and every other literal
is a double.
-/

namespace AccessControl.Json

/-- A number literal: sign, digits before and after the point, exponent. -/
structure Numeral where
  neg : Bool
  whole : List Char
  fraction : Option (List Char)
  exponent : Option Int

namespace Numeral

open Digits (digit value digits?)

/-- The digits before the point: a zero stands alone. -/
def whole? : List Char → Option (List Char × List Char)
  | '0' :: cs => match cs with
    | c :: _ => if c.isDigit then none else some (['0'], cs)
    | [] => some (['0'], [])
  | cs => digits? cs

def fraction? : List Char → Option (Option (List Char) × List Char)
  | '.' :: cs => (digits? cs).map fun (ds, r) => (some ds, r)
  | cs => some (none, cs)

def exponent? : List Char → Option (Option Int × List Char)
  | c :: cs =>
    if c = 'e' ∨ c = 'E' then
      match cs with
      | '+' :: cs => (digits? cs).map fun (ds, r) => (some (value ds : Int), r)
      | '-' :: cs => (digits? cs).map fun (ds, r) => (some (-(value ds : Int)), r)
      | cs => (digits? cs).map fun (ds, r) => (some (value ds : Int), r)
    else some (none, c :: cs)
  | [] => some (none, [])

/-- The literal at the front of a text, and what follows it. -/
def read? (cs : List Char) : Option (Numeral × List Char) := do
  let (neg, cs) := match cs with
    | '-' :: cs => (true, cs)
    | cs => (false, cs)
  let (whole, cs) ← whole? cs
  let (fraction, cs) ← fraction? cs
  let (exponent, cs) ← exponent? cs
  return (⟨neg, whole, fraction, exponent⟩, cs)

/-- The largest significand that is kept exactly. -/
def maxSignificand : Nat := Nat.pow 2 64 - 1

/-- The largest whole number that is kept exactly behind a minus sign. -/
def maxNegated : Nat := Nat.pow 2 63

/-- Takes up digits while the significand stays within 64 bits: the significand reached, and how
many digits are left over. -/
def absorb (n : Nat) : List Char → Nat × Nat
  | [] => (n, 0)
  | c :: cs =>
    if maxSignificand < 10 * n + digit c then (n, cs.length + 1) else absorb (10 * n + digit c) cs

/-- The double that a literal stands for: digits beyond 64 bits only count as places. -/
def double? (l : Numeral) : Option Binary64 :=
  let (n, dropped) := absorb 0 l.whole
  let fraction := l.fraction.getD []
  let (n, left) := absorb n fraction
  let places : Int := (dropped : Int) - ((fraction.length - left : Nat) : Int)
  Binary64.ofDecimal? l.neg n (places + l.exponent.getD 0)

/-- The number that a literal stands for; `none` when it is too large for a double. -/
def number? (l : Numeral) : Option Json :=
  let n := value l.whole
  match l.fraction, l.exponent with
  | none, none =>
    if l.neg then
      if 0 < n ∧ n ≤ maxNegated then some (.int (-n)) else l.double?.map .float
    else if n ≤ maxSignificand then some (.int n) else l.double?.map .float
  | _, _ => l.double?.map .float

end Numeral

end AccessControl.Json
