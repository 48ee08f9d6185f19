import AccessControl.Json.Numeral

/-!
# Reading JSON

A reader over characters with a bound on nesting. A `Shape` tells it which fields of an object are
wanted: the others are checked for form only, at any depth, and dropped. Fields are returned in the
order in which they stand, repeated keys included; `ofText?` puts them in key order.
-/

namespace AccessControl.Json

/-- What a reader wants of a value. -/
inductive Shape
  | whole
  /-- An object with these fields, or an array with their values in this order. -/
  | fields (l : List (String × Shape))

def isBlank (c : Char) : Bool := c == ' ' || c == '\n' || c == '\t' || c == '\r'

def skipBlanks (cs : List Char) : List Char := cs.dropWhile isBlank

def hexValue? (c : Char) : Option Nat :=
  if '0' ≤ c ∧ c ≤ '9' then some (c.toNat - '0'.toNat)
  else if 'a' ≤ c ∧ c ≤ 'f' then some (c.toNat - 'a'.toNat + 10)
  else if 'A' ≤ c ∧ c ≤ 'F' then some (c.toNat - 'A'.toNat + 10)
  else none

def hex4? : List Char → Option (Nat × List Char)
  | a :: b :: c :: d :: cs => do
    let a ← hexValue? a
    let b ← hexValue? b
    let c ← hexValue? c
    let d ← hexValue? d
    return (((a * 16 + b) * 16 + c) * 16 + d, cs)
  | _ => none

/-- A character written as `\u`, from behind these two: one unit of four digits, or two surrogates.
A surrogate that stands alone is refused. -/
def unicode? (cs : List Char) : Option (Char × List Char) := do
  let (n, cs) ← hex4? cs
  if 0xD800 ≤ n ∧ n ≤ 0xDBFF then
    match cs with
    | '\\' :: 'u' :: cs =>
      let (m, cs) ← hex4? cs
      if 0xDC00 ≤ m ∧ m ≤ 0xDFFF then
        return (Char.ofNat (0x10000 + (n - 0xD800) * 0x400 + (m - 0xDC00)), cs)
      else none
    | _ => none
  else if 0xDC00 ≤ n ∧ n ≤ 0xDFFF then none
  else return (Char.ofNat n, cs)

def simpleEscape? (c : Char) : Option Char :=
  if c = '"' ∨ c = '\\' ∨ c = '/' then some c
  else if c = 'b' then some '\x08'
  else if c = 'f' then some '\x0c'
  else if c = 'n' then some '\n'
  else if c = 'r' then some '\r'
  else if c = 't' then some '\t'
  else none

/-- The characters of a quoted text, from behind the opening quote. -/
def quotedBody? : Nat → List Char → Option (List Char × List Char)
  | 0, _ => none
  | n + 1, cs => match cs with
    | [] => none
    | '"' :: r => some ([], r)
    | '\\' :: 'u' :: r => do
      let (c, r) ← unicode? r
      let (s, r) ← quotedBody? n r
      return (c :: s, r)
    | '\\' :: e :: r => do
      let c ← simpleEscape? e
      let (s, r) ← quotedBody? n r
      return (c :: s, r)
    | c :: r =>
      if c.toNat < 0x20 then none
      else (quotedBody? n r).map fun (s, r) => (c :: s, r)

def quoted? (cs : List Char) : Option (String × List Char) :=
  (quotedBody? (cs.length + 1) cs).map fun (s, r) => (String.ofList s, r)

/-- Passes over a quoted text; here a surrogate may stand alone. -/
def skipQuoted? : Nat → List Char → Option (List Char)
  | 0, _ => none
  | n + 1, cs => match cs with
    | [] => none
    | '"' :: r => some r
    | '\\' :: 'u' :: r => do
      let (_, r) ← hex4? r
      skipQuoted? n r
    | '\\' :: e :: r => do
      let _ ← simpleEscape? e
      skipQuoted? n r
    | c :: r => if c.toNat < 0x20 then none else skipQuoted? n r

mutual

/-- Passes over a value, checking its form only. -/
def skip? : Nat → List Char → Option (List Char)
  | 0, _ => none
  | n + 1, cs => match skipBlanks cs with
    | 'n' :: 'u' :: 'l' :: 'l' :: r => some r
    | 't' :: 'r' :: 'u' :: 'e' :: r => some r
    | 'f' :: 'a' :: 'l' :: 's' :: 'e' :: r => some r
    | '"' :: r => skipQuoted? (r.length + 1) r
    | '[' :: r => match skipBlanks r with
      | ']' :: r => some r
      | r => skipItems? n r
    | '{' :: r => match skipBlanks r with
      | '}' :: r => some r
      | r => skipFields? n r
    | r => (Numeral.read? r).map (·.2)

def skipItems? : Nat → List Char → Option (List Char)
  | 0, _ => none
  | n + 1, cs => do
    let r ← skip? n cs
    match skipBlanks r with
    | ',' :: r => skipItems? n r
    | ']' :: r => some r
    | _ => none

def skipFields? : Nat → List Char → Option (List Char)
  | 0, _ => none
  | n + 1, cs => match skipBlanks cs with
    | '"' :: r => do
      let r ← skipQuoted? (r.length + 1) r
      match skipBlanks r with
      | ':' :: r =>
        let r ← skip? n r
        match skipBlanks r with
        | ',' :: r => skipFields? n r
        | '}' :: r => some r
        | _ => none
      | _ => none
    | _ => none

end

/-- What is wanted of a field; `none` for a field that is not. -/
def Shape.field? : Shape → String → Option Shape
  | .whole, _ => some .whole
  | .fields l, k => (l.find? (·.1 = k)).map (·.2)

/-- What is wanted of the first value of an array, and of the others. -/
def Shape.item : Shape → Shape × Shape
  | .whole => (.whole, .whole)
  | .fields [] => (.whole, .whole)
  | .fields ((_, s) :: l) => (s, .fields l)

mutual

/-- A value at the front of a text, nested at most `depth` deep, and what follows it. The first
argument bounds the recursion; the length of the text is enough. -/
def value? : Nat → Shape → Nat → List Char → Option (Json × List Char)
  | 0, _, _, _ => none
  | n + 1, s, depth, cs => match skipBlanks cs with
    | 'n' :: 'u' :: 'l' :: 'l' :: r => some (.null, r)
    | 't' :: 'r' :: 'u' :: 'e' :: r => some (.bool true, r)
    | 'f' :: 'a' :: 'l' :: 's' :: 'e' :: r => some (.bool false, r)
    | '"' :: r => (quoted? r).map fun (s, r) => (.str s, r)
    | '[' :: r => match depth with
      | 0 => none
      | depth + 1 => match skipBlanks r with
        | ']' :: r => some (.arr [], r)
        | r => (items? n s depth r).map fun (js, r) => (.arr js, r)
    | '{' :: r => match depth with
      | 0 => none
      | depth + 1 => match skipBlanks r with
        | '}' :: r => some (.obj [], r)
        | r => (fields? n s depth r).map fun (fs, r) => (.obj fs, r)
    | r => do
      let (l, r) ← Numeral.read? r
      let j ← l.number?
      return (j, r)

def items? : Nat → Shape → Nat → List Char → Option (List Json × List Char)
  | 0, _, _, _ => none
  | n + 1, s, depth, cs => do
    let (j, r) ← value? n s.item.1 depth cs
    match skipBlanks r with
    | ',' :: r =>
      let (js, r) ← items? n s.item.2 depth r
      return (j :: js, r)
    | ']' :: r => return ([j], r)
    | _ => none

def fields? : Nat → Shape → Nat → List Char → Option (List (String × Json) × List Char)
  | 0, _, _, _ => none
  | n + 1, s, depth, cs => match skipBlanks cs with
    | '"' :: r => do
      let (k, r) ← quoted? r
      match skipBlanks r with
      | ':' :: r =>
        let (here, r) ← match s.field? k with
          | some s => (value? n s depth r).map fun (j, r) => ([(k, j)], r)
          | none => (skip? n r).map fun r => ([], r)
        match skipBlanks r with
        | ',' :: r =>
          let (fs, r) ← fields? n s depth r
          return (here ++ fs, r)
        | '}' :: r => return (here, r)
        | _ => none
      | _ => none
    | _ => none

end

/-- The value that a text is, with nothing but blanks around it. -/
def read? (s : Shape) (depth : Nat) (cs : List Char) : Option Json := do
  let (j, r) ← value? (cs.length + 1) s depth cs
  if (skipBlanks r).isEmpty then some j else none

/-- How deep a text may nest arrays and objects. -/
def maxDepth : Nat := 127

/-- The value of a text, its objects in key order, nested at most `depth` deep. -/
def ofText? (s : String) (depth : Nat) : Option Json := (read? .whole depth s.toList).map canonical

end AccessControl.Json
