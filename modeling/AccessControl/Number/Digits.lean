/-!
# Rows of decimal digits
-/

namespace AccessControl.Digits

def digit (c : Char) : Nat := c.toNat - '0'.toNat

/-- The number that a row of digits stands for. -/
def value (ds : List Char) : Nat := ds.foldl (fun n c => 10 * n + digit c) 0

/-- The digits at the front of a text, of which there is one at least, and what follows them. -/
def digits? (cs : List Char) : Option (List Char × List Char) :=
  match cs.takeWhile Char.isDigit with
  | [] => none
  | ds => some (ds, cs.dropWhile Char.isDigit)

/-- The number that a text is, which may begin with a plus sign. -/
def whole? (cs : List Char) : Option Nat :=
  let cs := match cs with
    | '+' :: cs => cs
    | cs => cs
  if cs.isEmpty || !cs.all Char.isDigit then none else some (value cs)

/-- The number that a text is, which may begin with a sign. -/
def signed? : List Char → Option Int
  | '-' :: c :: cs => if c = '+' then none else (whole? (c :: cs)).map fun n => -(n : Int)
  | cs => (whole? cs).map Int.ofNat

end AccessControl.Digits
