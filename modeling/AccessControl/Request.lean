import AccessControl.Identity

/-!
# Requests and decisions

What is asked (an identity wants to act on a resource) and how it is answered. The reason of a
decision is internal; callers see `Decision.publicMessage` only. `Request.outOfScope?` denies what
lies in another tenant or application.
-/

namespace AccessControl

structure Resource where
  type : String
  id : Option String
  tenant : TenantId
  app : Option AppId
  attributes : SortedMap String Json
  deriving DecidableEq

namespace Resource

def new (tenant : TenantId) (type : String) : Resource := ⟨type, none, tenant, none, .empty⟩

def withId (r : Resource) (id : String) : Resource := { r with id := some id }
def withApp (r : Resource) (app : AppId) : Resource := { r with app := some app }
def withAttribute (r : Resource) (k : String) (v : Json) : Resource :=
  { r with attributes := r.attributes.insert k v }

def toJson (r : Resource) : Json :=
  .obj [("app_id", .ofOption (fun a => .str a.text) r.app), ("attributes", .ofMap r.attributes),
    ("id", .ofOption .str r.id), ("tenant_id", .str r.tenant.text), ("type", .str r.type)]

def ofJson? (j : Json) : Option Resource := do
  let r ← j.record? ["type", "id", "tenant_id", "app_id", "attributes"]
  return {
    type := ← r.required Json.text? "type"
    id := ← r.optional Json.text? "id"
    tenant := ⟨← r.required Json.text? "tenant_id"⟩
    app := (← r.optional Json.text? "app_id").map Id.mk
    attributes := ← r.orElse Json.map? "attributes" .empty }

end Resource

structure Request where
  identity : Identity
  resource : Resource
  action : String
  context : SortedMap String Json
  deriving DecidableEq

def Request.required (r : Request) : Permission := .forAction r.resource.type r.action

inductive Denial
  | tenantMismatch
  | appMismatch
  | missingRole
  | missingPermission
  | noMatchingRule
  | conditionFailed
  | noGrant
  | policyDenied
  | noMatchingPolicy
  | indeterminate
  deriving DecidableEq, Repr

namespace Denial

def name : Denial → String
  | .tenantMismatch => "tenant_mismatch"
  | .appMismatch => "app_mismatch"
  | .missingRole => "missing_role"
  | .missingPermission => "missing_permission"
  | .noMatchingRule => "no_matching_rule"
  | .conditionFailed => "condition_failed"
  | .noGrant => "no_grant"
  | .policyDenied => "policy_denied"
  | .noMatchingPolicy => "no_matching_policy"
  | .indeterminate => "indeterminate"

def all : List Denial :=
  [.tenantMismatch, .appMismatch, .missingRole, .missingPermission, .noMatchingRule,
    .conditionFailed, .noGrant, .policyDenied, .noMatchingPolicy, .indeterminate]

def ofName? (s : String) : Option Denial := all.find? (·.name = s)

def toJson (d : Denial) : Json := .str d.name

def ofJson? (j : Json) : Option Denial := j.tag?.bind ofName?

end Denial

/-- The answer to a request; a denial has a kind. -/
structure Decision where
  denial : Option Denial
  reason : String
  model : String
  deriving DecidableEq, Repr

namespace Decision

def allow (model reason : String) : Decision := ⟨none, reason, model⟩

def deny (model : String) (d : Denial) (reason : String) : Decision := ⟨some d, reason, model⟩

def allowed (d : Decision) : Bool := d.denial.isNone

@[simp] theorem allowed_allow (model reason : String) : (allow model reason).allowed = true := rfl

@[simp] theorem allowed_deny (model : String) (k : Denial) (reason : String) :
    (deny model k reason).allowed = false := rfl

def accessDenied : String := "access denied"

/-- What a caller is shown: it does not tell which check denied. -/
def publicMessage (d : Decision) : String := if d.allowed then "access granted" else accessDenied

def toJson (d : Decision) : Json :=
  .obj [("allowed", .bool d.allowed), ("denial", .ofOption Denial.toJson d.denial),
    ("model", .str d.model), ("reason", .str d.reason)]

end Decision

/-- The resource lies in the tenant of the identity, and in its application if it names one. -/
def Request.InScope (r : Request) : Prop :=
  r.resource.tenant = r.identity.tenant ∧ ∀ a ∈ r.resource.app, a = r.identity.app

/-- The denial, in the name of `model`, of a request outside the scope of its identity. -/
def Request.outOfScope? (r : Request) (model : String) : Option Decision :=
  if r.resource.tenant ≠ r.identity.tenant then
    some (.deny model .tenantMismatch ("resource tenant '" ++ r.resource.tenant.text ++
      "' differs from identity tenant '" ++ r.identity.tenant.text ++ "'"))
  else match r.resource.app with
    | none => none
    | some a =>
      if a = r.identity.app then none
      else some (.deny model .appMismatch ("resource app '" ++ a.text ++
        "' differs from identity app '" ++ r.identity.app.text ++ "'"))

theorem Request.outOfScope?_eq_none {r : Request} {model : String} :
    r.outOfScope? model = none ↔ r.InScope := by
  unfold outOfScope? InScope
  split
  · next h => simp [h]
  · next h =>
    simp only [ne_eq, Decidable.not_not] at h
    split
    · next h' => simp [h, h']
    · next a h' => by_cases ha : a = r.identity.app <;> simp [h, h', ha]

/-- Out of scope nothing is allowed. -/
theorem Request.allowed_of_outOfScope? {r : Request} {model : String} {d : Decision}
    (h : r.outOfScope? model = some d) : d.allowed = false := by
  unfold outOfScope? at h
  split at h
  · exact Option.some.inj h ▸ rfl
  · split at h
    · cases h
    · split at h
      · cases h
      · exact Option.some.inj h ▸ rfl

/-- Why a request could not be decided: a store does not answer. -/
inductive DecisionError
  | unavailable (text : String)
  deriving DecidableEq, Repr

def DecisionError.message : DecisionError → String
  | .unavailable s => "authorization store unavailable: " ++ s

def DecisionError.kind : DecisionError → String
  | .unavailable _ => "Unavailable"

end AccessControl
