import AccessControl.Token.Procedure
import AccessControl.Token.Signed

/-!
# Managing tokens

Issuing, checking, rotating and revoking tokens of one format. Verification checks structure,
signature or record, expiry, revocation and scope in this order. A refresh token is exchanged once:
of several rotations of one token the one that first reports it to the revocation list wins.
-/

namespace AccessControl

/-- What stands behind the values of a format. -/
inductive TokenBacking
  | signed (k : SignedCodec)
  | stored

structure TokenManager where
  settings : TokenSettings
  backing : TokenBacking
  primitives : Primitives

def Claims.check (c : Claims) : Except ClaimsFault Unit :=
  if c.subject?.isNone then .error .noSubject
  else if !c.hasScope then .error .noScope
  else if c.reservedKeys ≠ [] then .error (.reserved c.reservedKeys)
  else if c.nestedKeys ≠ [] then .error (.nested c.nestedKeys)
  else .ok ()

namespace TokenManager

open Operation Procedure

/-- The manager for some settings. -/
def new? (p : Primitives) (s : TokenSettings) : Except SettingsFault TokenManager := do
  s.check
  match s.format with
  | .signed => return ⟨s, .signed (← SignedCodec.new? p s), p⟩
  | .opaqueValue => return ⟨s, .stored, p⟩

/-- The manager for some settings over a given store, which only opaque tokens have. -/
def overStore? (p : Primitives) (s : TokenSettings) : Except SettingsFault TokenManager :=
  if s.format = .signed then .error .storeForSigned else new? p s

def hasStore (m : TokenManager) : Bool :=
  match m.backing with
  | .signed _ => false
  | .stored => true

/-- A fresh value for claims and the identifier that it stands for; behind an opaque value a record
is stored. -/
def mint (m : TokenManager) (c : Claims) (kind : TokenKind) (tenant : TenantId) (app : AppId)
    (subject : SubjectId) (issuedAt expiresAt : Instant) : Operation (String × TokenId) :=
  match m.backing with
  | .signed k => do
    let id ← call .freshId
    return (k.encode c ⟨id, kind, issuedAt, expiresAt⟩, id)
  | .stored => do
    let value ← call .freshValue
    let id := OpaqueValue.id m.primitives value
    checked .ofStore <| boundCall <| .insertRecord
      { id, kind, subject, tenant, app, claims := c, issuedAt, expiresAt, revokedAt := none }
    return (value, id)

/-- A token for claims from now on, in whole seconds. -/
def issue (m : TokenManager) (c : Claims) (kind : TokenKind) : Operation Token := do
  let now ← call .now
  let issuedAt := now.wholeSecond
  let expiresAt ← representable (issuedAt.addSeconds? (m.settings.lifetime kind))
  match c.tenant?, c.app?, c.subject? with
  | some tenant, some app, some subject =>
    let (value, id) ← m.mint c kind tenant app subject issuedAt expiresAt
    let metadata :=
      (SortedMap.empty.insert "format" m.settings.format.name).insert "subject_id" subject.text
    return { value, id, kind, tenant, app, issuedAt, expiresAt, metadata }
  | _, _, _ => throw (.invalidClaims .incomplete)

def generate (m : TokenManager) (c : Claims) (kind : TokenKind) : Operation Token :=
  match c.check with
  | .ok () => m.issue c kind
  | .error f => throw (.invalidClaims f)

/-- What a value claims to be, and whether its record is marked as revoked. -/
def lookUp (m : TokenManager) (value : String) :
    Operation (Except VerificationFailure (Verified × Bool)) :=
  match m.backing with
  | .signed k => return (k.decode value).map fun v => (v, false)
  | .stored =>
    if OpaqueValue.isWellFormed value then do
      match ← checked .ofStore (boundCall (.findRecord (OpaqueValue.id m.primitives value))) with
      | none => return .error .notFound
      | some r => return .ok (⟨r.claims, r.details⟩, r.isRevoked)
    else return .error .malformed

/-- Whether a token is revoked; one whose record says so is not looked up. -/
def isRevoked (id : TokenId) (marked : Bool) : Operation Bool :=
  if marked then return true else checked .ofRevocations (boundCall (.findRevocation id))

/-- Checks a value. It fails only where a collaborator fails. -/
def verify (m : TokenManager) (value : String) :
    Operation (Except VerificationFailure Verified) := do
  match ← m.lookUp value with
  | .error f => return .error f
  | .ok (v, marked) =>
    let now ← call .now
    if v.details.expiresAt ≤ now then return .error .expired
    else if ← isRevoked v.details.id marked then return .error .revoked
    else if v.claims.hasScope then return .ok v
    else return .error .missingScope

/-- Deletes the records of tokens that are not handed out after all. -/
def discard (m : TokenManager) (c : Claims) (tokens : List Token) : Procedure Unit :=
  match m.backing, c.subject? with
  | .stored, some subject => tokens.forM fun t => do let _ ← call (.deleteRecord subject t.id)
  | _, _ => return

/-- Marks the record of a rotated token as revoked. -/
def markRevoked (m : TokenManager) (c : Claims) (id : TokenId) : Procedure Unit :=
  match m.backing, c.subject? with
  | .stored, some subject => do
    let now ← call .now
    let _ ← call (.revokeRecord subject id now)
  | _, _ => return

/-- Reports a token to the revocation list, up to `retries` times again while that fails. -/
def retire (d : TokenDetails) : (retries : Nat) → Procedure (Except CallFault Bool)
  | 0 => call (.addRevocation d.id d.expiresAt)
  | n + 1 => do
    match ← call (.addRevocation d.id d.expiresAt) with
    | .ok new => return .ok new
    | .error _ => retire d n

/-- Exchanges a refresh token for a new pair. The presented token is retired before the pair is handed
out, even if the request ends meanwhile; who finds it retired already gives the pair up. -/
def refresh (m : TokenManager) (value : String) : Operation TokenPair := do
  match ← m.verify value with
  | .error f => throw (.rejected f)
  | .ok v =>
    if v.details.kind = .refresh then
      let access ← m.issue v.claims .access
      let refresh ← tryCatch (m.issue v.claims .refresh) fun e => do
        m.discard v.claims [access]
        throw e
      match ← retire v.details (m.settings.revokeAttempts - 1) with
      | .ok true =>
        m.markRevoked v.claims v.details.id
        return ⟨access, refresh⟩
      | .ok false =>
        m.discard v.claims [access, refresh]
        throw (.rejected .revoked)
      | .error _ => return ⟨access, refresh⟩
    else throw (.rejected .wrongKind)

def addRevocation (id : TokenId) (expiresAt : Instant) : Operation Bool :=
  checked .ofRevocations (boundCall (.addRevocation id expiresAt))

/-- Revokes a token until it expires. Tokens that are expired or unknown are left alone. -/
def revoke (m : TokenManager) (value : String) : Operation Unit := do
  let now ← call .now
  match m.backing with
  | .signed k => match k.decode value with
    | .error f => throw (.rejected f)
    | .ok v =>
      if v.details.expiresAt ≤ now then return
      else
        let _ ← addRevocation v.details.id v.details.expiresAt
  | .stored =>
    if OpaqueValue.isWellFormed value then
      let id := OpaqueValue.id m.primitives value
      match ← checked .ofStore (boundCall (.findRecord id)) with
      | none => return
      | some r =>
        if r.isExpired now then return
        else
          let _ ← addRevocation id r.expiresAt
          let _ ← checked .ofStore (boundCall (.revokeRecord r.subject id now))
    else throw (.rejected .malformed)

/-- Revokes records one after the other, and counts those that the revocation list did not have. -/
def revokeEach (subject : SubjectId) (now : Instant) : List TokenRecord → Operation Nat
  | [] => return 0
  | r :: rs => do
    let new ← addRevocation r.id r.expiresAt
    let _ ← checked .ofStore (boundCall (.revokeRecord subject r.id now))
    let n ← revokeEach subject now rs
    return if new then n + 1 else n

/-- Revokes all live opaque tokens of a subject in a tenant. -/
def revokeAll (m : TokenManager) (tenant : TenantId) (subject : SubjectId) : Operation Nat :=
  match m.backing with
  | .signed _ => throw (.unsupported .signed)
  | .stored => do
    let now ← call .now
    let records ← checked .ofStore (boundCall (.listRecords tenant subject))
    revokeEach subject now (records.filter (·.isLive now))

def list (m : TokenManager) (tenant : TenantId) (subject : SubjectId) :
    Operation (List TokenRecord) :=
  match m.backing with
  | .signed _ => throw (.unsupported .signed)
  | .stored => checked .ofStore (boundCall (.listRecords tenant subject))

end TokenManager

end AccessControl
