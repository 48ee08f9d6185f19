import AccessControl.Request
import AccessControl.Text.Split

/-!
# Attribute paths

Dotted names for the values of a request: `action`, `subject.…`, `resource.…` and `context.…`.
Built-in names of a subject or resource stand alone; every other first name is looked up among the
attributes (for a subject then in the profile), and further names descend into objects.
-/

namespace AccessControl.Request

/-- The value that further names lead to inside an object. -/
def descend : Json → List String → Option Json
  | v, [] => some v
  | v, k :: ks => match v.field? k with
    | some w => descend w ks
    | none => none

def subjectBuiltIn? (i : Identity) (name : String) : Option Json :=
  if name = "id" then some (.str i.subject.id.text)
  else if name = "tenant_id" then some (.str i.tenant.text)
  else if name = "app_id" then some (.str i.app.text)
  else if name = "type" then some (.str i.subject.kind.name)
  else if name = "principal" then some (.str i.subject.principal)
  else if name = "roles" then some (.ofStrings (i.roles.toList.map (·.name)))
  else if name = "permissions" then some (.ofStrings (i.permissions.toList.map (·.text)))
  else if name = "groups" then some (.ofStrings i.groups.toList)
  else none

/-- The value of a claim, or else of a profile field. -/
def subjectAttribute? (i : Identity) (name : String) : Option Json :=
  (i.subject.attributes.get? name).orElse fun _ => i.profile.get? name

/-- The names that a resource has of itself; a value may be missing. -/
def resourceBuiltIn? (r : Resource) (name : String) : Option (Option Json) :=
  if name = "type" then some (some (.str r.type))
  else if name = "id" then some (r.id.map .str)
  else if name = "tenant_id" then some (some (.str r.tenant.text))
  else if name = "app_id" then some (r.app.map fun a => .str a.text)
  else none

def lookupNames (r : Request) : List String → Option Json
  | ["action"] => some (.str r.action)
  | "subject" :: name :: rest =>
    match rest, subjectBuiltIn? r.identity name with
    | [], some v => some v
    | _, _ => (subjectAttribute? r.identity name).bind (descend · rest)
  | "resource" :: name :: rest =>
    match rest, resourceBuiltIn? r.resource name with
    | [], some v => v
    | _, _ => (r.resource.attributes.get? name).bind (descend · rest)
  | "context" :: name :: rest => (r.context.get? name).bind (descend · rest)
  | _ => none

/-- The value of a dotted path; nothing if the request has none there. -/
def lookup (r : Request) (path : String) : Option Json := r.lookupNames (Text.splitString '.' path)

end AccessControl.Request
