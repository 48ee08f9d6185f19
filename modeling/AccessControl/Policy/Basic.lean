import AccessControl.Condition
import AccessControl.Glob

/-!
# Policies

Rules of an administrator: an effect for the subjects, resources and actions that match patterns and
for which conditions hold. A condition maps a path to the value it must have: a text that starts with
a dollar sign names another path, and an array lists the values allowed.
-/

namespace AccessControl

inductive Effect
  | allow
  | deny
  deriving DecidableEq, Repr

namespace Effect

def name : Effect → String
  | allow => "allow"
  | deny => "deny"

def ofName? (s : String) : Option Effect :=
  if s = "allow" then some allow else if s = "deny" then some deny else none

end Effect

/-- How the policies that match a request make one decision. -/
inductive Combining
  /-- A matching deny wins. -/
  | denyOverrides
  /-- A matching allow wins. -/
  | permitOverrides
  /-- The highest priority wins, of these the earliest. -/
  | firstApplicable
  /-- More than one match is no answer. -/
  | onlyOneApplicable
  deriving DecidableEq, Repr

/-- Why a policy, or the name of a way to combine policies, is refused. -/
inductive PolicyFault
  | emptyId
  | noPatterns (id field : String)
  | badPattern (id field pattern : String) (error : GlobError)
  | unknownCombining (text : String)
  deriving DecidableEq, Repr

def PolicyFault.message : PolicyFault → String
  | .emptyId => "invalid policy: policy id is empty"
  | .noPatterns id field => "invalid policy: policy '" ++ id ++ "' has no " ++ field ++ " patterns"
  | .badPattern id field pattern e =>
    "invalid policy: policy '" ++ id ++ "' " ++ field ++ " pattern '" ++ pattern ++
      "': error parsing glob '" ++ pattern ++ "': " ++ e.message
  | .unknownCombining s => "invalid policy: unknown combining algorithm '" ++ s ++ "'"

namespace Combining

def name : Combining → String
  | denyOverrides => "deny-overrides"
  | permitOverrides => "permit-overrides"
  | firstApplicable => "first-applicable"
  | onlyOneApplicable => "only-one-applicable"

def ofName? (s : String) : Option Combining :=
  [denyOverrides, permitOverrides, firstApplicable, onlyOneApplicable].find? (·.name = s)

/-- By name, in any case and with underscores for dashes. -/
def parse (s : String) : Except PolicyFault Combining :=
  let t := (Text.trim s).toLower.map fun c => if c = '_' then '-' else c
  match ofName? t with
  | some a => .ok a
  | none => .error (.unknownCombining t)

end Combining

structure Policy where
  id : String
  tenant : TenantId
  app : Option AppId
  effect : Effect
  subjects : List String
  resources : List String
  actions : List String
  conditions : SortedMap String Json
  priority : Int
  createdAt : Instant
  deriving DecidableEq

namespace Policy

def new (id : String) (tenant : TenantId) (effect : Effect) (createdAt : Instant) : Policy :=
  ⟨id, tenant, none, effect, [], [], [], .empty, 0, createdAt⟩

def forApp (p : Policy) (a : AppId) : Policy := { p with app := some a }
def addSubjects (p : Policy) (l : List String) : Policy := { p with subjects := p.subjects ++ l }
def addResources (p : Policy) (l : List String) : Policy := { p with resources := p.resources ++ l }
def addActions (p : Policy) (l : List String) : Policy := { p with actions := p.actions ++ l }
def when (p : Policy) (path : String) (expected : Json) : Policy :=
  { p with conditions := p.conditions.insert path expected }
def withPriority (p : Policy) (n : Int) : Policy := { p with priority := n }
def dated (p : Policy) (t : Instant) : Policy := { p with createdAt := t }

def priorityBound : Int := Nat.pow 2 31

def toJson (p : Policy) : Json :=
  .obj [("actions", .ofStrings p.actions), ("app_id", .ofOption (fun a => .str a.text) p.app),
    ("conditions", .ofMap p.conditions), ("created_at", p.createdAt.toJson),
    ("effect", .str p.effect.name), ("id", .str p.id), ("priority", .int p.priority),
    ("resources", .ofStrings p.resources), ("subjects", .ofStrings p.subjects),
    ("tenant_id", .str p.tenant.text)]

/-- A policy that does not say when it was created is created at the moment it is read. -/
def ofJson? (now : Instant) (j : Json) : Option Policy := do
  let r ← j.record? ["id", "tenant_id", "app_id", "effect", "subjects", "resources", "actions",
    "conditions", "priority", "created_at"]
  return {
    id := ← r.required Json.text? "id"
    tenant := ⟨← r.required Json.text? "tenant_id"⟩
    app := (← r.optionalOrNone Json.text? "app_id").map Id.mk
    effect := ← r.required (fun j => j.tag?.bind Effect.ofName?) "effect"
    subjects := ← r.required Json.texts? "subjects"
    resources := ← r.required Json.texts? "resources"
    actions := ← r.required Json.texts? "actions"
    conditions := ← r.orElse Json.map? "conditions" .empty
    priority := ← r.orElse (Json.intIn? (-priorityBound) (priorityBound - 1)) "priority" 0
    createdAt := ← r.orElse Instant.ofJson? "created_at" now }

/-- One condition holds: the path has the expected value. -/
def conditionHolds (q : Request) (path : String) (expected : Json) : Bool :=
  match q.lookup path with
  | none => false
  | some actual => match expected with
    | .str s => match s.toList with
      | '$' :: other => match q.lookup (String.ofList other) with
        | some v => actual.same v
        | none => false
      | _ => actual.same expected
    | .arr _ => actual.memberOf expected
    | _ => actual.same expected

def conditionsHold (q : Request) (conditions : SortedMap String Json) : Bool :=
  conditions.toList.all fun e => conditionHolds q e.1 e.2

end Policy

namespace Request

/-- The texts that a pattern for subjects is matched against: the subject with and without its kind,
and its roles and groups. -/
def subjectNames (q : Request) : List String :=
  q.identity.subject.id.text :: q.identity.subject.qualified ::
    q.identity.roles.toList.map (fun r => "role:" ++ r.name) ++
    q.identity.groups.toList.map (fun g => "group:" ++ g)

/-- The texts that a pattern for resources is matched against. -/
def resourceNames (q : Request) : List String :=
  q.resource.type :: (q.resource.id.map fun id => q.resource.type ++ ":" ++ id).toList

end Request

end AccessControl
