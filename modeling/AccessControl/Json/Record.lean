import AccessControl.Json.Basic

/-!
# Records in JSON

How a value with named fields is read from JSON: from an object, whose other fields are ignored and
in which no field of the record may be repeated, or from an array with the values in field order.
The readers of plain values (`text?`, `intIn?`, `texts?`, …) stand here too.
-/

namespace AccessControl.Json

def text? : Json → Option String := str?

def intIn? (low high : Int) : Json → Option Int
  | int n => if low ≤ n ∧ n ≤ high then some n else none
  | _ => none

/-- A whole number of the given width, without sign. -/
def natBelow? (bound : Nat) : Json → Option Nat
  | int n => if 0 ≤ n ∧ n < bound then some n.toNat else none
  | _ => none

def list? {α : Type} (read : Json → Option α) : Json → Option (List α)
  | arr items => items.mapM read
  | _ => none

def texts? : Json → Option (List String) := list? text?

/-- An object as a map; the last one wins where a key is repeated. -/
def map? : Json → Option (SortedMap String Json)
  | obj fields => some (SortedMap.ofList fields)
  | _ => none

/-- The name of an alternative without content: a text, or an object with that one field, which is
null. -/
def tag? : Json → Option String
  | str s => some s
  | obj [(k, null)] => some k
  | _ => none

/-- The fields of a record that were given. -/
structure Record where
  fields : List (String × Json)
  positional : Bool

/-- The given fields of a record with these field names. -/
def record? (names : List String) : Json → Option Record
  | obj fields =>
    let known := fields.filter fun f => names.contains f.1
    if (known.map (·.1)).Nodup then some ⟨known, false⟩ else none
  | arr items => if items.length ≤ names.length then some ⟨names.zip items, true⟩ else none
  | _ => none

namespace Record

def get? (r : Record) (name : String) : Option Json := (r.fields.find? (·.1 = name)).map (·.2)

variable {α : Type} (read : Json → Option α)

def required (r : Record) (name : String) : Option α := (r.get? name).bind read

/-- A field that stands for `default` when it is not given. -/
def orElse (r : Record) (name : String) (default : α) : Option α :=
  match r.get? name with
  | some j => read j
  | none => some default

def nullable (j : Json) : Option (Option α) := if j.isNull then some none else (read j).map some

/-- A field that may be null, or missing from an object. -/
def optional (r : Record) (name : String) : Option (Option α) :=
  match r.get? name with
  | some j => nullable read j
  | none => if r.positional then none else some none

/-- A field that may be null, or missing. -/
def optionalOrNone (r : Record) (name : String) : Option (Option α) :=
  r.orElse (nullable read) name none

end Record

end AccessControl.Json
