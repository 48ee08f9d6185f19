import AccessControl.Claims
import AccessControl.Json.Record
import AccessControl.Text.Split
import AccessControl.Time.Timestamp

/-!
# Subjects

Who a verified token stands for, read off its claims, and the session that the token opens.
-/

namespace AccessControl

inductive SubjectKind
  | user
  | service
  deriving DecidableEq, Repr

namespace SubjectKind

def name : SubjectKind → String
  | .user => "user"
  | .service => "service"

def ofName? (s : String) : Option SubjectKind :=
  if s = "user" then some .user else if s = "service" then some .service else none

/-- A kind by its name in any case, or the lower-case text that is no name. -/
def parse (s : String) : Except String SubjectKind :=
  let t := (Text.trim s).toLower
  match ofName? t with
  | some k => .ok k
  | none => .error t

end SubjectKind

inductive SubjectError
  | missingSubject
  | missingTenant
  | unknownKind (text : String)
  | missingApp
  deriving DecidableEq, Repr

def SubjectError.message : SubjectError → String
  | .missingSubject => "claims carry no subject id"
  | .missingTenant => "claims carry no tenant id"
  | .unknownKind s => "unknown subject type '" ++ s ++ "'"
  | .missingApp => "subject has no app scope"

def SubjectError.kind : SubjectError → String
  | .missingSubject => "MissingSubject"
  | .missingTenant => "MissingTenant"
  | .unknownKind _ => "InvalidSubjectType"
  | .missingApp => "MissingAppScope"

structure Subject where
  id : SubjectId
  tenant : TenantId
  kind : SubjectKind
  /-- The name shown to people. -/
  principal : String
  attributes : SortedMap String Json
  deriving DecidableEq

namespace Subject

instance : Inhabited Subject := ⟨⟨default, default, .user, "", .empty⟩⟩

/-- The subject that claims stand for: subject and tenant are named, the other claims are kept as
attributes, and the principal is the first given of principal, email and subject. -/
def ofClaims (c : Claims) : Except SubjectError Subject := do
  let some id := c.subject? | throw .missingSubject
  let some tenant := c.tenant? | throw .missingTenant
  let kind ← match c.text? "subject_type" with
    | none => pure SubjectKind.user
    | some s => match SubjectKind.parse s with
      | .ok k => pure k
      | .error t => throw (.unknownKind t)
  let principal := ((c.text? "principal").orElse fun _ => c.text? "email").getD id.text
  let attributes := c.entries.filter fun k _ => k ≠ Claims.subjectKey && k ≠ Claims.tenantKey
  return { id, tenant, kind, principal, attributes }

def app? (s : Subject) : Option AppId :=
  (((s.attributes.get? Claims.appKey).bind Json.str?).filter fun t => !Text.isBlank t).map Id.mk

/-- The claims that are kept as attributes keep the application. -/
theorem app?_of_attributes {c : Claims} {s : Subject}
    (h : s.attributes =
      c.entries.filter fun k _ => k ≠ Claims.subjectKey && k ≠ Claims.tenantKey) :
    s.app? = c.app? := by
  have hkept : (decide (Claims.appKey ≠ Claims.subjectKey) &&
      decide (Claims.appKey ≠ Claims.tenantKey)) = true := by decide
  have hget : s.attributes.get? Claims.appKey = c.get? Claims.appKey := by
    rw [h, SortedMap.get?_filter, hkept]
    cases hc : c.entries.get? Claims.appKey <;> simp [Claims.get?, hc]
  unfold app? Claims.app? Claims.text?
  rw [hget]

/-- The subject is the one that the claims name, in the tenant and the application that they name. -/
theorem ofClaims_ok {c : Claims} {s : Subject} (h : ofClaims c = .ok s) :
    c.subject? = some s.id ∧ c.tenant? = some s.tenant ∧ s.app? = c.app? := by
  unfold ofClaims at h
  cases hid : c.subject? with
  | none => simp [hid] at h
  | some id =>
    cases htenant : c.tenant? with
    | none => simp [hid, htenant] at h
    | some tenant =>
      simp only [hid, htenant] at h
      cases hkind : c.text? "subject_type" with
      | none =>
        rw [hkind] at h
        obtain rfl := Except.ok.inj h
        exact ⟨rfl, rfl, app?_of_attributes rfl⟩
      | some text =>
        rw [hkind] at h
        cases hparse : SubjectKind.parse text with
        | error t =>
          simp only [hparse] at h
          cases h
        | ok kind =>
          simp only [hparse] at h
          obtain rfl := Except.ok.inj h
          exact ⟨rfl, rfl, app?_of_attributes rfl⟩

def qualified (s : Subject) : String := s.kind.name ++ ":" ++ s.id.text

def fieldNames : List String := ["id", "tenant_id", "subject_type", "principal", "attributes"]

def toJson (s : Subject) : Json :=
  .obj [("attributes", .ofMap s.attributes), ("id", .str s.id.text),
    ("principal", .str s.principal), ("subject_type", .str s.kind.name),
    ("tenant_id", .str s.tenant.text)]

def ofJson? (j : Json) : Option Subject := do
  let r ← j.record? fieldNames
  return {
    id := ⟨← r.required Json.text? "id"⟩
    tenant := ⟨← r.required Json.text? "tenant_id"⟩
    kind := ← r.required (fun j => j.tag?.bind SubjectKind.ofName?) "subject_type"
    principal := ← r.required Json.text? "principal"
    attributes := ← r.required Json.map? "attributes" }

end Subject

def Instant.toJson (a : Instant) : Json := .str (Timestamp.write a)

def Instant.ofJson? (j : Json) : Option Instant := j.str?.bind Timestamp.read?

/-- The token that a request came with. -/
structure Session where
  token : TokenId
  issuedAt : Instant
  expiresAt : Instant
  deriving DecidableEq

namespace Session

def toJson (s : Session) : Json :=
  .obj [("expires_at", s.expiresAt.toJson), ("issued_at", s.issuedAt.toJson),
    ("token_id", .str s.token.text)]

def ofJson? (j : Json) : Option Session := do
  let r ← j.record? ["token_id", "issued_at", "expires_at"]
  return {
    token := ⟨← r.required Json.text? "token_id"⟩
    issuedAt := ← r.required Instant.ofJson? "issued_at"
    expiresAt := ← r.required Instant.ofJson? "expires_at" }

end Session

end AccessControl
