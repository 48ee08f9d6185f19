import AccessControl.AccessList
import AccessControl.Exemption
import AccessControl.Policy.Store
import AccessControl.Rule

/-!
# Models of authorization

A model decides requests by roles, by attribute rules, by access list, by policies, or by another
model narrowed by rules and widened by exemptions. `Model.decide` looks at the scope of a request
first and asks the model only about what lies inside. A store that does not answer leaves a request
undecided.
-/

namespace AccessControl

/-- The stores that models refer to, or the error of one that does not answer. -/
structure Rights where
  roles : Except DecisionError RoleTable
  accessList : Except DecisionError AccessList
  policies : Except DecisionError PolicyStore

instance : Inhabited Rights := ⟨⟨.ok .empty, .ok .empty, .ok .empty⟩⟩

inductive Model
  | roles
  | rules (rules : List Rule)
  | accessList
  | policies (combining : Combining)
  /-- What `inner` allows must satisfy the constraints that apply; what it denies is allowed to the
  exempt. -/
  | hybrid (inner : Model) (constraints : List Rule) (exemptions : List Exemption)

namespace Model

def name : Model → String
  | roles => "rbac"
  | rules _ => Rule.model
  | accessList => AccessList.model
  | policies _ => Combining.model
  | hybrid .. => "hybrid"

/-- The decision by roles: one that the identity has, or inherits from, must have a permission that
covers the required one. -/
def decideByRoles (t : RoleTable) (q : Request) : Decision :=
  match t.findGrant q.identity.tenant q.identity.roles.toList q.required with
  | some g => .allow "rbac" ("role '" ++ g.role.name ++ "' grants '" ++ g.permission.text ++ "'")
  | none => .deny "rbac" .missingPermission ("no role grants '" ++ q.required.text ++ "'")

/-- The first constraint that applies and does not hold. -/
def broken? (constraints : List Rule) (q : Request) (now : Instant) : Option Rule :=
  constraints.find? fun c => c.appliesTo q && !c.holds q now

/-- The decision of an inner model narrowed by constraints and widened by exemptions. -/
def refine (constraints : List Rule) (exemptions : List Exemption) (q : Request) (now : Instant)
    (base : Decision) : Decision :=
  if base.allowed then
    match broken? constraints q now with
    | some c => .deny "hybrid" .conditionFailed
        (base.model ++ " allowed but constraint '" ++ c.name ++ "' does not hold")
    | none => .allow "hybrid" base.reason
  else
    match exemptions.findSome? (·.permits? q now) with
    | some reason => .allow "hybrid" (base.model ++ " denied; override: " ++ reason)
    | none => base

/-- The decision of a model, whatever the scope of the request. -/
def evaluate (rights : Rights) (q : Request) (now : Instant) :
    Model → Except DecisionError Decision
  | roles => rights.roles.map (decideByRoles · q)
  | rules l => .ok (Rule.decide l q now)
  | accessList => rights.accessList.map (·.decide q)
  | policies a => rights.policies.map fun s => a.combine (s.applicable q)
  | hybrid inner constraints exemptions =>
    (inner.evaluate rights q now).map (refine constraints exemptions q now)

/-- The decision of a model on a request, which is denied outside the scope of its identity. -/
def decide (m : Model) (rights : Rights) (q : Request) (now : Instant) :
    Except DecisionError Decision :=
  match q.outOfScope? m.name with
  | some d => .ok d
  | none => m.evaluate rights q now

/-- Roles narrowed by constraints; owners may read what is theirs. -/
def ownersRead (constraints : List Rule) (ownerAttribute : String) : Model :=
  hybrid roles constraints [.owner Exemption.defaultActions ownerAttribute]

end Model

end AccessControl
