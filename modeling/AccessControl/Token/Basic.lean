import AccessControl.Subject

/-!
# Tokens

A token has a bearer value, which the client presents, and an identifier, under which it is recorded
and revoked. Access tokens open doors; refresh tokens are exchanged for new pairs.
-/

namespace AccessControl

/-- How a token carries its claims: signed inside the value, or in a record that the value names. -/
inductive TokenFormat
  | signed
  | opaqueValue
  deriving DecidableEq, Repr

namespace TokenFormat

def name : TokenFormat → String
  | .signed => "signed"
  | .opaqueValue => "opaque"

def ofName? (s : String) : Option TokenFormat :=
  if s = "signed" then some .signed else if s = "opaque" then some .opaqueValue else none

def toJson (f : TokenFormat) : Json := .str f.name

def ofJson? (j : Json) : Option TokenFormat := j.tag?.bind ofName?

end TokenFormat

inductive TokenKind
  | access
  | refresh
  deriving DecidableEq, Repr

namespace TokenKind

def name : TokenKind → String
  | .access => "access"
  | .refresh => "refresh"

def ofName? (s : String) : Option TokenKind :=
  if s = "access" then some .access else if s = "refresh" then some .refresh else none

def toJson (k : TokenKind) : Json := .str k.name

def ofJson? (j : Json) : Option TokenKind := j.tag?.bind ofName?

end TokenKind

structure Token where
  value : String
  id : TokenId
  kind : TokenKind
  tenant : TenantId
  app : AppId
  issuedAt : Instant
  expiresAt : Instant
  metadata : SortedMap String String
  deriving DecidableEq

namespace Token

/-- The seconds that are left at `now`. -/
def secondsLeft (t : Token) (now : Instant) : Int := max 0 (t.expiresAt.secondsSince now)

def fieldNames : List String :=
  ["value", "id", "kind", "tenant_id", "app_id", "issued_at", "expires_at", "metadata"]

def toJson (t : Token) : Json :=
  .obj [("app_id", .str t.app.text), ("expires_at", t.expiresAt.toJson), ("id", .str t.id.text),
    ("issued_at", t.issuedAt.toJson), ("kind", t.kind.toJson),
    ("metadata", .ofMap (t.metadata.map fun _ s => .str s)), ("tenant_id", .str t.tenant.text),
    ("value", .str t.value)]

def metadata? : Json → Option (SortedMap String String)
  | .obj fields => do return .ofList (← fields.mapM fun f => f.2.text?.map (f.1, ·))
  | _ => none

def ofJson? (j : Json) : Option Token := do
  let r ← j.record? fieldNames
  return {
    value := ← r.required Json.text? "value"
    id := ⟨← r.required Json.text? "id"⟩
    kind := ← r.required TokenKind.ofJson? "kind"
    tenant := ⟨← r.required Json.text? "tenant_id"⟩
    app := ⟨← r.required Json.text? "app_id"⟩
    issuedAt := ← r.required Instant.ofJson? "issued_at"
    expiresAt := ← r.required Instant.ofJson? "expires_at"
    metadata := ← r.required metadata? "metadata" }

end Token

structure TokenPair where
  access : Token
  refresh : Token
  deriving DecidableEq

namespace TokenPair

def toJson (p : TokenPair) : Json :=
  .obj [("access", p.access.toJson), ("refresh", p.refresh.toJson)]

def ofJson? (j : Json) : Option TokenPair := do
  let r ← j.record? ["access", "refresh"]
  return {
    access := ← r.required Token.ofJson? "access"
    refresh := ← r.required Token.ofJson? "refresh" }

end TokenPair

/-- What a verified token is, besides its claims. -/
structure TokenDetails where
  id : TokenId
  kind : TokenKind
  issuedAt : Instant
  expiresAt : Instant
  deriving DecidableEq

namespace TokenDetails

def toJson (d : TokenDetails) : Json :=
  .obj [("expires_at", d.expiresAt.toJson), ("issued_at", d.issuedAt.toJson),
    ("kind", d.kind.toJson), ("token_id", .str d.id.text)]

def ofJson? (j : Json) : Option TokenDetails := do
  let r ← j.record? ["token_id", "kind", "issued_at", "expires_at"]
  return {
    id := ⟨← r.required Json.text? "token_id"⟩
    kind := ← r.required TokenKind.ofJson? "kind"
    issuedAt := ← r.required Instant.ofJson? "issued_at"
    expiresAt := ← r.required Instant.ofJson? "expires_at" }

end TokenDetails

end AccessControl
