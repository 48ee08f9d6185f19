import AccessControl.Number.Binary64
import AccessControl.Order.SortedMap

/-!
# JSON values

Whole numbers and doubles are kept apart: a whole number never equals a double, also where both
have the same value. `Json.same` is that equality; it differs from `=` only in that the two zeros
are the same double. The fields of an object stand in key order (`Json.ofMap`, `Json.canonical`).
-/

namespace AccessControl

inductive Json
  | null
  | bool (b : Bool)
  | int (n : Int)
  | float (x : Binary64)
  | str (s : String)
  | arr (items : List Json)
  | obj (fields : List (String × Json))

namespace Json

instance : Inhabited Json := ⟨null⟩

mutual

/-- Equality of values: numbers by value within their kind, objects field by field. -/
def same : Json → Json → Bool
  | null, null => true
  | bool a, bool b => a == b
  | int a, int b => a == b
  | float a, float b => a.cmp b == .eq
  | str a, str b => a == b
  | arr as, arr bs => sameItems as bs
  | obj as, obj bs => sameFields as bs
  | _, _ => false

def sameItems : List Json → List Json → Bool
  | [], [] => true
  | a :: as, b :: bs => same a b && sameItems as bs
  | _, _ => false

def sameFields : List (String × Json) → List (String × Json) → Bool
  | [], [] => true
  | (k, a) :: as, (l, b) :: bs => k == l && same a b && sameFields as bs
  | _, _ => false

end

/-- The value of a field; the first one if the key is repeated. -/
def field? (j : Json) (k : String) : Option Json :=
  match j with
  | obj fields => (fields.find? (·.1 = k)).map (·.2)
  | _ => none

def str? : Json → Option String
  | str s => some s
  | _ => none

def isNull : Json → Bool
  | null => true
  | _ => false

def isScalar : Json → Bool
  | arr _ | obj _ => false
  | _ => true

/-- A scalar, or an array of scalars. -/
def isFlat : Json → Bool
  | arr items => items.all isScalar
  | obj _ => false
  | _ => true

/-- The value of a number as a double. -/
def double? : Json → Option Binary64
  | int n => some (Binary64.ofInt n)
  | float x => some x
  | _ => none

def ofMap (m : SortedMap String Json) : Json := obj m.toList

def ofStrings (l : List String) : Json := arr (l.map str)

def ofOption {α : Type} (f : α → Json) : Option α → Json
  | some a => f a
  | none => null

mutual

/-- The fields of every object put in key order; the last one wins where a key is repeated. -/
def canonical : Json → Json
  | arr items => arr (canonicalItems items)
  | obj fields => obj (SortedMap.ofList (canonicalFields fields)).toList
  | j => j

def canonicalItems : List Json → List Json
  | [] => []
  | j :: js => canonical j :: canonicalItems js

def canonicalFields : List (String × Json) → List (String × Json)
  | [] => []
  | (k, j) :: fs => (k, canonical j) :: canonicalFields fs

end

mutual

def floatFree : Json → Bool
  | float _ => false
  | arr items => floatFreeItems items
  | obj fields => floatFreeFields fields
  | _ => true

def floatFreeItems : List Json → Bool
  | [] => true
  | j :: js => floatFree j && floatFreeItems js

def floatFreeFields : List (String × Json) → Bool
  | [] => true
  | (_, j) :: fs => floatFree j && floatFreeFields fs

end

mutual

/-- How deep arrays and objects are nested in a value. -/
def depth : Json → Nat
  | arr items => depthItems items + 1
  | obj fields => depthFields fields + 1
  | _ => 0

def depthItems : List Json → Nat
  | [] => 0
  | j :: js => max (depth j) (depthItems js)

def depthFields : List (String × Json) → Nat
  | [] => 0
  | (_, j) :: fs => max (depth j) (depthFields fs)

end

mutual

def decEq : (a b : Json) → Decidable (a = b)
  | null, b => by cases b <;> first | exact isTrue rfl | exact isFalse (by simp)
  | bool x, bool y => decidable_of_iff (x = y) (by simp)
  | int x, int y => decidable_of_iff (x = y) (by simp)
  | float x, float y => decidable_of_iff (x = y) (by simp)
  | str x, str y => decidable_of_iff (x = y) (by simp)
  | arr xs, arr ys => match decEqItems xs ys with
    | isTrue h => isTrue (h ▸ rfl)
    | isFalse h => isFalse (by simpa using h)
  | obj xs, obj ys => match decEqFields xs ys with
    | isTrue h => isTrue (h ▸ rfl)
    | isFalse h => isFalse (by simpa using h)
  | bool _, null | bool _, int _ | bool _, float _ | bool _, str _ | bool _, arr _ | bool _, obj _
  | int _, null | int _, bool _ | int _, float _ | int _, str _ | int _, arr _ | int _, obj _
  | float _, null | float _, bool _ | float _, int _ | float _, str _ | float _, arr _
  | float _, obj _
  | str _, null | str _, bool _ | str _, int _ | str _, float _ | str _, arr _ | str _, obj _
  | arr _, null | arr _, bool _ | arr _, int _ | arr _, float _ | arr _, str _ | arr _, obj _
  | obj _, null | obj _, bool _ | obj _, int _ | obj _, float _ | obj _, str _ | obj _, arr _ =>
    isFalse (by simp)

def decEqItems : (a b : List Json) → Decidable (a = b)
  | [], [] => isTrue rfl
  | [], _ :: _ | _ :: _, [] => isFalse (by simp)
  | x :: xs, y :: ys => match decEq x y with
    | isTrue h => match decEqItems xs ys with
      | isTrue h' => isTrue (by rw [h, h'])
      | isFalse h' => isFalse (by simp [h'])
    | isFalse h => isFalse (by simp [h])

def decEqFields : (a b : List (String × Json)) → Decidable (a = b)
  | [], [] => isTrue rfl
  | [], _ :: _ | _ :: _, [] => isFalse (by simp)
  | (k, x) :: xs, (l, y) :: ys =>
    if hk : k = l then match decEq x y with
      | isTrue h => match decEqFields xs ys with
        | isTrue h' => isTrue (by rw [hk, h, h'])
        | isFalse h' => isFalse (by simp [h'])
      | isFalse h => isFalse (by simp [h])
    else isFalse (by simp [hk])

end

instance : DecidableEq Json := decEq

end Json

end AccessControl
