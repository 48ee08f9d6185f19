import AccessControl.RoleTable
import AccessControl.Subject

/-!
# Identities

A subject in one tenant and application with all that it is entitled to there. Permissions are held
as patterns: holding one that covers the required permission is enough.
-/

namespace AccessControl

structure Identity where
  subject : Subject
  tenant : TenantId
  app : AppId
  roles : SortedSet Role
  permissions : SortedSet Permission
  groups : SortedSet String
  profile : SortedMap String Json
  session : Option Session
  deriving DecidableEq

namespace Identity

def bare (s : Subject) (app : AppId) : Identity :=
  { subject := s, tenant := s.tenant, app, roles := .empty, permissions := .empty, groups := .empty
    profile := .empty, session := none }

instance : Inhabited Identity := ⟨bare default default⟩

def withRoles (i : Identity) (l : List Role) : Identity := { i with roles := i.roles.insertMany l }

def withPermissions (i : Identity) (l : List Permission) : Identity :=
  { i with permissions := i.permissions.insertMany l }

def withGroups (i : Identity) (l : List String) : Identity :=
  { i with groups := i.groups.insertMany l }

def hasRole (i : Identity) (r : Role) : Bool := decide (r ∈ i.roles)

def hasAnyRole (i : Identity) (l : List Role) : Bool := l.any i.hasRole

def hasAllRoles (i : Identity) (l : List Role) : Bool := l.all i.hasRole

def hasPermission (i : Identity) (p : Permission) : Bool := i.permissions.toList.any (·.covers p)

def hasAnyPermission (i : Identity) (l : List Permission) : Bool := l.any i.hasPermission

def hasAllPermissions (i : Identity) (l : List Permission) : Bool := l.all i.hasPermission

def inGroup (i : Identity) (g : String) : Bool := decide (g ∈ i.groups)

def fieldNames : List String :=
  ["subject", "tenant_id", "app_id", "roles", "permissions", "groups", "profile", "session"]

def toJson (i : Identity) : Json :=
  .obj [("app_id", .str i.app.text), ("groups", .ofStrings i.groups.toList),
    ("permissions", .ofStrings (i.permissions.toList.map (·.text))),
    ("profile", .ofMap i.profile), ("roles", .ofStrings (i.roles.toList.map (·.name))),
    ("session", .ofOption Session.toJson i.session), ("subject", i.subject.toJson),
    ("tenant_id", .str i.tenant.text)]

def ofJson? (j : Json) : Option Identity := do
  let r ← j.record? fieldNames
  return {
    subject := ← r.required Subject.ofJson? "subject"
    tenant := ⟨← r.required Json.text? "tenant_id"⟩
    app := ⟨← r.required Json.text? "app_id"⟩
    roles := .ofList ((← r.required Json.texts? "roles").map Role.mk)
    permissions := .ofList ((← r.required Json.texts? "permissions").map Permission.mk)
    groups := .ofList (← r.required Json.texts? "groups")
    profile := ← r.required Json.map? "profile"
    session := ← r.optional Session.ofJson? "session" }

end Identity

end AccessControl
