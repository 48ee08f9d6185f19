import AccessControl.Order.SortedSet
import AccessControl.Request

/-!
# Access lists

Grants of one action on one resource to one subject. A request is allowed only by the grant that
names exactly its tenant, application, subject, resource and action.
-/

namespace AccessControl

structure AccessEntry where
  tenant : TenantId
  app : AppId
  subject : SubjectId
  resourceType : String
  resourceId : String
  action : String
  deriving DecidableEq, Repr

namespace AccessEntry

instance : Keyed AccessEntry where
  key e := [e.tenant.text, e.app.text, e.subject.text, e.resourceType, e.resourceId, e.action]
  key_inj {a b} h := by
    obtain ⟨⟨_⟩, ⟨_⟩, ⟨_⟩, _, _, _⟩ := a
    obtain ⟨⟨_⟩, ⟨_⟩, ⟨_⟩, _, _, _⟩ := b
    simpa using h

def toJson (e : AccessEntry) : Json :=
  .obj [("action", .str e.action), ("app_id", .str e.app.text), ("resource_id", .str e.resourceId),
    ("resource_type", .str e.resourceType), ("subject_id", .str e.subject.text),
    ("tenant_id", .str e.tenant.text)]

def ofJson? (j : Json) : Option AccessEntry := do
  let r ← j.record? ["tenant_id", "app_id", "subject_id", "resource_type", "resource_id", "action"]
  return {
    tenant := ⟨← r.required Json.text? "tenant_id"⟩
    app := ⟨← r.required Json.text? "app_id"⟩
    subject := ⟨← r.required Json.text? "subject_id"⟩
    resourceType := ← r.required Json.text? "resource_type"
    resourceId := ← r.required Json.text? "resource_id"
    action := ← r.required Json.text? "action" }

/-- The grant that a request with an instance needs. -/
def needed (q : Request) (id : String) : AccessEntry :=
  ⟨q.identity.tenant, q.identity.app, q.identity.subject.id, q.resource.type, id, q.action⟩

end AccessEntry

structure AccessList where
  entries : SortedSet AccessEntry
  deriving DecidableEq

namespace AccessList

def empty : AccessList := ⟨.empty⟩

instance : Inhabited AccessList := ⟨empty⟩

def granted (l : AccessList) (e : AccessEntry) : Bool := decide (e ∈ l.entries)

def grant (l : AccessList) (e : AccessEntry) : AccessList := ⟨l.entries.insert e⟩

def revoke (l : AccessList) (e : AccessEntry) : AccessList := ⟨l.entries.erase e⟩

def ofSubject (l : AccessList) (tenant : TenantId) (app : AppId) (subject : SubjectId) :
    List AccessEntry :=
  l.entries.toList.filter fun e => e.tenant = tenant && e.app = app && e.subject = subject

def onResource (l : AccessList) (tenant : TenantId) (app : AppId) (type id : String) :
    List AccessEntry :=
  l.entries.toList.filter fun e =>
    e.tenant = tenant && e.app = app && e.resourceType == type && e.resourceId == id

def model : String := "acl"

def decide (l : AccessList) (q : Request) : Decision :=
  match q.resource.id with
  | none => .deny model .noGrant "resource has no instance id"
  | some id =>
    let name := q.resource.type ++ ":" ++ id
    if l.granted (.needed q id) then .allow model ("explicit grant on " ++ name)
    else .deny model .noGrant ("no grant for '" ++ q.action ++ "' on " ++ name)

end AccessList

end AccessControl
