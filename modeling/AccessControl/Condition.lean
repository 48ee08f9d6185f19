import AccessControl.AttributePath

/-!
# Conditions

Predicates over the attributes of a request and the hour of the day. A comparison with a side that
is missing is false, also `notEquals`. An operand that is an object with a text field `attribute`
is read as a path and everything else as itself.
-/

namespace AccessControl

/-- One side of a comparison. -/
inductive Operand
  | path (path : String)
  | literal (value : Json)
  deriving DecidableEq

namespace Operand

def value? (r : Request) : Operand → Option Json
  | path p => r.lookup p
  | literal v => some v

def toJson : Operand → Json
  | path p => .obj [("attribute", .str p)]
  | literal v => v

def ofJson (j : Json) : Operand :=
  match j with
  | .obj _ => match (j.field? "attribute").bind Json.str? with
    | some p => path p
    | none => literal j
  | _ => literal j

end Operand

namespace Json

/-- A value is a member of an array; an array is if one of its own members is. -/
def memberOf (value set : Json) : Bool :=
  match set with
  | arr items => match value with
    | arr values => values.any fun v => items.any (same v)
    | v => items.any (same v)
  | _ => false

/-- The order of two numbers, taken as doubles, or of two texts. -/
def order? (a b : Json) : Option Ordering :=
  match a.double?, b.double? with
  | some x, some y => some (x.cmp y)
  | _, _ => match a, b with
    | str s, str t => some (if s < t then .lt else if t < s then .gt else .eq)
    | _, _ => none

end Json

inductive Condition
  | equals (left right : Operand)
  | notEquals (left right : Operand)
  /-- The value, or one of its members if it is an array, is in the set. -/
  | within (value set : Operand)
  | exists (path : String)
  | greaterThan (left right : Operand)
  | lessThan (left right : Operand)
  /-- The hour is one of those from `start` to before `stop`, past midnight if `stop` is earlier. -/
  | hourBetween (start stop : Nat)
  | all (conditions : List Condition)
  | any (conditions : List Condition)
  | not (condition : Condition)

namespace Condition

instance : Inhabited Condition := ⟨all []⟩

/-- Both sides have a value, and the values are related. -/
def compareWith (r : Request) (left right : Operand) (p : Json → Json → Bool) : Bool :=
  match left.value? r, right.value? r with
  | some a, some b => p a b
  | _, _ => false

def hourWithin (hour start stop : Nat) : Bool :=
  if start ≤ stop then start ≤ hour && hour < stop else start ≤ hour || hour < stop

mutual

def holds (r : Request) (now : Instant) : Condition → Bool
  | equals a b => compareWith r a b fun x y => x.same y
  | notEquals a b => compareWith r a b fun x y => !x.same y
  | within v s => compareWith r v s Json.memberOf
  | .exists p => match r.lookup p with
    | some v => !v.isNull
    | none => false
  | greaterThan a b => compareWith r a b fun x y => x.order? y == some .gt
  | lessThan a b => compareWith r a b fun x y => x.order? y == some .lt
  | hourBetween start stop => hourWithin now.hour start stop
  | all cs => allHold r now cs
  | any cs => anyHolds r now cs
  | not c => !holds r now c

def allHold (r : Request) (now : Instant) : List Condition → Bool
  | [] => true
  | c :: cs => holds r now c && allHold r now cs

def anyHolds (r : Request) (now : Instant) : List Condition → Bool
  | [] => false
  | c :: cs => holds r now c || anyHolds r now cs

end

theorem allHold_eq_all (r : Request) (now : Instant) (cs : List Condition) :
    allHold r now cs = cs.all (holds r now) := by
  induction cs with
  | nil => rfl
  | cons c cs ih => rw [allHold, ih]; rfl

theorem anyHolds_eq_any (r : Request) (now : Instant) (cs : List Condition) :
    anyHolds r now cs = cs.any (holds r now) := by
  induction cs with
  | nil => rfl
  | cons c cs ih => rw [anyHolds, ih]; rfl

mutual

def toJson : Condition → Json
  | equals a b => comparison "equals" a b
  | notEquals a b => comparison "not_equals" a b
  | within v s => .obj [("op", .str "in"), ("set", s.toJson), ("value", v.toJson)]
  | .exists p => .obj [("attribute", .str p), ("op", .str "exists")]
  | greaterThan a b => comparison "greater_than" a b
  | lessThan a b => comparison "less_than" a b
  | hourBetween start stop =>
    .obj [("end", .int stop), ("op", .str "hour_between"), ("start", .int start)]
  | all cs => .obj [("conditions", .arr (toJsonList cs)), ("op", .str "all")]
  | any cs => .obj [("conditions", .arr (toJsonList cs)), ("op", .str "any")]
  | not c => .obj [("condition", toJson c), ("op", .str "not")]

def toJsonList : List Condition → List Json
  | [] => []
  | c :: cs => toJson c :: toJsonList cs

def comparison (op : String) (a b : Operand) : Json :=
  .obj [("left", a.toJson), ("op", .str op), ("right", b.toJson)]

end

/-- The operators in the order in which a condition inside another may number them. -/
def operators : List String :=
  ["equals", "not_equals", "in", "exists", "greater_than", "less_than", "hour_between", "all",
    "any", "not"]

/-- The fields that go with an operator, in their order. -/
def fieldNames (op : String) : List String :=
  if op = "in" then ["value", "set"]
  else if op = "exists" then ["attribute"]
  else if op = "hour_between" then ["start", "end"]
  else if op = "all" ∨ op = "any" then ["conditions"]
  else if op = "not" then ["condition"]
  else ["left", "right"]

/-- The operator that a tag names. Inside another condition its number will do. -/
def operator? (inner : Bool) : Json → Option String
  | .str s => if operators.contains s then some s else none
  | .int n => if inner ∧ 0 ≤ n then operators[n.toNat]? else none
  | _ => none

/-- The operator of a condition, and the value that holds its fields: an object with a field `op`,
or an array that starts with the operator. -/
def tagged? (inner : Bool) (j : Json) : Option (String × Json) :=
  match j with
  | .obj fields => do
    let op ← (j.field? "op").bind (operator? inner)
    return (op, .obj (fields.filter (·.1 ≠ "op")))
  | .arr (tag :: rest) => do
    let op ← operator? inner tag
    return (op, .arr rest)
  | _ => none

def hourBound : Nat := Nat.pow 2 32

/-- A condition with an operator that holds no other condition. -/
def leafOfRecord? (op : String) (r : Json.Record) : Option Condition := do
  let operand (name : String) := r.required (fun j => some (Operand.ofJson j)) name
  if op = "equals" then return equals (← operand "left") (← operand "right")
  else if op = "not_equals" then return notEquals (← operand "left") (← operand "right")
  else if op = "in" then return within (← operand "value") (← operand "set")
  else if op = "exists" then return .exists (← r.required Json.text? "attribute")
  else if op = "greater_than" then return greaterThan (← operand "left") (← operand "right")
  else if op = "less_than" then return lessThan (← operand "left") (← operand "right")
  else if op = "hour_between" then
    return hourBetween (← r.required (Json.natBelow? hourBound) "start")
      (← r.required (Json.natBelow? hourBound) "end")
  else none

def read? : Nat → Bool → Json → Option Condition
  | 0, _, _ => none
  | n + 1, inner, j => do
    let (op, body) ← tagged? inner j
    let r ← body.record? (fieldNames op)
    if op = "all" then return all (← r.required (Json.list? (read? n true)) "conditions")
    else if op = "any" then return any (← r.required (Json.list? (read? n true)) "conditions")
    else if op = "not" then return not (← r.required (read? n true) "condition")
    else leafOfRecord? op r

def ofJson? (j : Json) : Option Condition := read? (j.depth + 1) false j

end Condition

end AccessControl
