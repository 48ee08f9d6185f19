import AccessControl.Id
import AccessControl.Json.Basic

/-!
# Claims

What a token says about its holder: values under keys. Subject, tenant and application are claims
too, and count as given only when they are text that is not blank. The keys of the token format
itself are reserved.
-/

namespace AccessControl

structure Claims where
  entries : SortedMap String Json
  deriving DecidableEq

namespace Claims

def empty : Claims := ⟨.empty⟩

instance : Inhabited Claims := ⟨empty⟩

def subjectKey : String := "subject_id"
def tenantKey : String := "tenant_id"
def appKey : String := "app_id"

/-- The keys that the signed format uses itself. -/
def reserved : List String := ["jti", "iat", "exp", "iss", "aud", "token_kind"]

/-- The claims with one more, in the place of what stood under the key. -/
def insert (c : Claims) (k : String) (v : Json) : Claims := ⟨c.entries.insert k v⟩

def get? (c : Claims) (k : String) : Option Json := c.entries.get? k

/-- The text under a key; nothing for other values and for blank text. -/
def text? (c : Claims) (k : String) : Option String :=
  ((c.get? k).bind Json.str?).filter fun s => !Text.isBlank s

/-- The claims that name a subject, its tenant and its application. -/
def forSubject (subject tenant app : String) : Claims :=
  empty.insert subjectKey (.str subject) |>.insert tenantKey (.str tenant)
    |>.insert appKey (.str app)

def subject? (c : Claims) : Option SubjectId := (c.text? subjectKey).map Id.mk
def tenant? (c : Claims) : Option TenantId := (c.text? tenantKey).map Id.mk
def app? (c : Claims) : Option AppId := (c.text? appKey).map Id.mk

def hasScope (c : Claims) : Bool := c.tenant?.isSome && c.app?.isSome

/-- The keys that a caller may not use. -/
def reservedKeys (c : Claims) : List String := c.entries.keys.filter reserved.contains

/-- The keys of values that are neither scalars nor arrays of scalars. -/
def nestedKeys (c : Claims) : List String :=
  (c.entries.toList.filter fun e => !e.2.isFlat).map (·.1)

def floatFree (c : Claims) : Bool := c.entries.values.all Json.floatFree

def toJson (c : Claims) : Json := .ofMap c.entries

def ofJson? : Json → Option Claims
  | .obj fields => some ⟨.ofList fields⟩
  | _ => none

end Claims

end AccessControl
