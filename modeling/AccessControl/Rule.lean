import AccessControl.Condition

/-!
# Attribute rules

A rule is a named condition for some actions and types of resource. A list of rules allows a request
when one of those that apply to it holds.
-/

namespace AccessControl

structure Rule where
  name : String
  actions : List String
  resourceTypes : List String
  condition : Condition

namespace Rule

def new (name : String) (condition : Condition) : Rule := ⟨name, [], [], condition⟩

def forActions (r : Rule) (l : List String) : Rule := { r with actions := l }
def forResourceTypes (r : Rule) (l : List String) : Rule := { r with resourceTypes := l }

/-- The list is empty, or names the value or a star. -/
def inScope (l : List String) (value : String) : Bool :=
  l.isEmpty || l.any fun v => v == "*" || v == value

def appliesTo (r : Rule) (q : Request) : Bool :=
  inScope r.actions q.action && inScope r.resourceTypes q.resource.type

def holds (r : Rule) (q : Request) (now : Instant) : Bool := r.condition.holds q now

def firstHolding? (rules : List Rule) (q : Request) (now : Instant) : Option Rule :=
  rules.find? fun r => r.appliesTo q && r.holds q now

def model : String := "abac"

/-- The decision of a list of rules; if none holds, the request is denied. -/
def decide (rules : List Rule) (q : Request) (now : Instant) : Decision :=
  match firstHolding? rules q now with
  | some r => .allow model ("rule '" ++ r.name ++ "' holds")
  | none => .deny model .noMatchingRule
      ("no rule permits '" ++ q.action ++ "' on '" ++ q.resource.type ++ "'")

def toJson (r : Rule) : Json :=
  .obj [("actions", .ofStrings r.actions), ("condition", r.condition.toJson), ("name", .str r.name),
    ("resource_types", .ofStrings r.resourceTypes)]

def ofJson? (j : Json) : Option Rule := do
  let r ← j.record? ["name", "actions", "resource_types", "condition"]
  return {
    name := ← r.required Json.text? "name"
    actions := ← r.orElse Json.texts? "actions" []
    resourceTypes := ← r.orElse Json.texts? "resource_types" []
    condition := ← r.required Condition.ofJson? "condition" }

end Rule

end AccessControl
