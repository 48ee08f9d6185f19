import AccessControl.Condition

/-!
# Exemptions

Fixed grounds on which a request that a model denied is allowed all the same: the subject owns the
resource, or the hour lies in a window.
-/

namespace AccessControl

inductive Exemption
  | owner (actions : List String) (field : String)
  | hours (actions : List String) (start stop : Nat)
  deriving DecidableEq, Repr

namespace Exemption

def defaultOwnerAttribute : String := "owner_id"

def defaultActions : List String := ["read"]

/-- Owners may read what is theirs. -/
def ownerRead : Exemption := owner defaultActions defaultOwnerAttribute

/-- Why the request is exempt, if it is. The owner is the text under the attribute's name. -/
def permits? (q : Request) (now : Instant) : Exemption → Option String
  | owner actions field =>
    if actions.contains q.action &&
        (q.resource.attributes.get? field).bind Json.str? == some q.identity.subject.id.text then
      some ("subject owns the resource (" ++ field ++ "), '" ++ q.action ++ "' permitted")
    else none
  | hours actions start stop =>
    if actions.contains q.action && Condition.hourWithin now.hour start stop then
      some ("'" ++ q.action ++ "' permitted between " ++ toString start ++ ":00 and " ++
        toString stop ++ ":00 UTC")
    else none

def toJson : Exemption → Json
  | owner actions field =>
    .obj [("actions", .ofStrings actions), ("kind", .str "resource_owner"),
      ("owner_attribute", .str field)]
  | hours actions start stop =>
    .obj [("actions", .ofStrings actions), ("end", .int stop), ("kind", .str "time_window"),
      ("start", .int start)]

/-- The kind of an exemption and the value that holds its other fields. -/
def tagged? : Json → Option (String × Json)
  | .obj fields => do
    let kind ← (Json.obj fields).field? "kind" >>= Json.str?
    return (kind, .obj (fields.filter (·.1 ≠ "kind")))
  | .arr (.str kind :: rest) => some (kind, .arr rest)
  | _ => none

def ofJson? (j : Json) : Option Exemption := do
  let (kind, body) ← tagged? j
  if kind = "resource_owner" then
    let r ← body.record? ["actions", "owner_attribute"]
    return owner (← r.orElse Json.texts? "actions" defaultActions)
      (← r.orElse Json.text? "owner_attribute" defaultOwnerAttribute)
  else if kind = "time_window" then
    let r ← body.record? ["actions", "start", "end"]
    return hours (← r.orElse Json.texts? "actions" defaultActions)
      (← r.required (Json.natBelow? Condition.hourBound) "start")
      (← r.required (Json.natBelow? Condition.hourBound) "end")
  else none

end Exemption

end AccessControl
