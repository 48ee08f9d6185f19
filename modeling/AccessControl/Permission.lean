import AccessControl.Order.Keyed
import AccessControl.Text.Split

/-!
# Permissions

A permission names an action on a type of resource, as segments between colons. It is also a
pattern: a star stands for any one segment, and as the last segment for one segment or more.
-/

namespace AccessControl

/-- A permission, or the pattern of those it covers. -/
structure Permission where
  text : String
  deriving DecidableEq, Repr

namespace Permission

instance : Keyed Permission where
  key p := [p.text]
  key_inj {a b} h := by cases a; cases b; simpa using h

/-- What is needed for an action on a type of resource. -/
def forAction (resourceType action : String) : Permission := ⟨resourceType ++ ":" ++ action⟩

def segments (p : Permission) : List String := Text.splitString ':' p.text

def isStar (p : Permission) : Bool := p.text == "*"

/-- The pattern `ps` covers the segments `ts`. -/
def segmentsCover : List String → List String → Bool
  | [], ts => ts.isEmpty
  | _ :: _, [] => false
  | [p], t :: ts => p == "*" || (p == t && ts.isEmpty)
  | p :: q :: ps, t :: ts => (p == "*" || p == t) && segmentsCover (q :: ps) ts

/-- `p`, read as a pattern, covers `q`. -/
def covers (p q : Permission) : Bool := p.isStar || segmentsCover p.segments q.segments

def coversAction (p : Permission) (resourceType action : String) : Bool :=
  p.covers (forAction resourceType action)

end Permission

end AccessControl
