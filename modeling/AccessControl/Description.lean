import AccessControl.Identity.Resolution
import AccessControl.Pipeline
import AccessControl.Settings

/-!
# Descriptions of models and pipelines

Models of authorization, the checks of a pipeline and the providers of a deployment, as they are
written in JSON.
-/

namespace AccessControl

/-- An exemption by its own description, or owner's read access by name. -/
def Exemption.describe? (j : Json) : Option Exemption :=
  if j = .str "owner_read" then some .ownerRead else ofJson? j

namespace Model

def rules? (j : Json) (name : String) : Option (List Rule) :=
  Json.list? Rule.ofJson? ((j.field? name).getD (.arr []))

def settings? (j : Json) : Option AuthorizationSettings :=
  AuthorizationSettings.ofJson? ((j.field? "config").getD (.obj []))

/-- The model of a description that is nested at most as deep as the first argument says. -/
def read? : Nat → Json → Option Model
  | 0, _ => none
  | n + 1, j => do
    let kind ← (j.field? "model").bind Json.str?
    if kind = "rbac" then return .roles
    else if kind = "acl" then return .accessList
    else if kind = "abac" then return .rules (← rules? j "rules")
    else if kind = "policy" then
      return .policies (← ((j.field? "algorithm").bind Json.tag?).bind Combining.ofName?)
    else if kind = "hybrid" then
      let overrides := (j.field? "overrides").getD (.arr [])
      return .hybrid (← read? n (← j.field? "inner")) (← rules? j "constraints")
        (← Json.list? Exemption.describe? overrides)
    else if kind = "hybrid_default" then
      return .ownersRead (← rules? j "constraints") (← settings? j).ownerAttribute
    else if kind = "policies_default" then return .policies (← settings? j).combining
    else none

def ofJson? (j : Json) : Option Model := read? (j.depth + 1) j

end Model

def Stage.ofJson? (j : Json) : Option Stage := do
  let kind ← (j.field? "stage").bind Json.str?
  if kind = "tenant_scope" then return .tenantScope
  else if kind = "require_any_role" then
    return .anyRole ((← (j.field? "roles").bind Json.texts?).map Role.mk)
  else if kind = "require_permission" then
    return .permission ⟨← (j.field? "permission").bind Json.str?⟩
  else if kind = "engine" then return .model (← (j.field? "engine").bind Model.ofJson?)
  else none

namespace Sources

/-- The providers with one more; of two providers of one kind the later one counts. -/
def add? (s : Sources) (name : String) : Option Sources :=
  if name = "roles" then some { s with roles := true }
  else if name = "permissions" then some { s with permissions := some .assigned }
  else if name = "derived" then some { s with permissions := some .throughRoles }
  else if name = "groups" then some { s with groups := true }
  else if name = "profiles" then some { s with profiles := true }
  else .none

def ofNames? (names : List String) : Option Sources := names.foldlM add? none

end Sources

end AccessControl
