import AccessControl.Number.Digits
import AccessControl.Token.Basic

/-!
# Token settings

How tokens are issued and checked. Settings are read from a record in which every field may be
missing, can be overridden by the environment, and are checked before use.
-/

namespace AccessControl

/-- The keyed hash that signs a token. -/
inductive SigningAlgorithm
  | hs256
  | hs384
  | hs512
  deriving DecidableEq, Repr

inductive SettingsFault
  | noSecret
  | accessLifetime
  | refreshLifetime
  | cleanupInterval
  | unknownFormat (text : String)
  | unknownAlgorithm (text : String)
  | notANumber (name text : String)
  | storeForSigned
  deriving DecidableEq, Repr

def SettingsFault.message : SettingsFault → String
  | .noSecret => "signing secret is not configured"
  | .accessLifetime => "access_ttl_secs must be positive"
  | .refreshLifetime => "refresh_ttl_secs must be positive"
  | .cleanupInterval => "cleanup_interval_secs must be positive"
  | .unknownFormat s => "unknown token format '" ++ s ++ "'"
  | .unknownAlgorithm s => "unknown signing algorithm '" ++ s ++ "'"
  | .notANumber v s => v ++ " is not a number: '" ++ s ++ "'"
  | .storeForSigned => "a token store requires the opaque format"

namespace SigningAlgorithm

def name : SigningAlgorithm → String
  | .hs256 => "HS256"
  | .hs384 => "HS384"
  | .hs512 => "HS512"

def all : List SigningAlgorithm := [hs256, hs384, hs512]

def ofName? (s : String) : Option SigningAlgorithm := all.find? (·.name = s)

/-- An algorithm by its name in any case. -/
def parse (s : String) : Except SettingsFault SigningAlgorithm :=
  let t := (Text.trim s).toUpper
  match ofName? t with
  | some a => .ok a
  | none => .error (.unknownAlgorithm t)

def toJson (a : SigningAlgorithm) : Json := .str a.name

def ofJson? (j : Json) : Option SigningAlgorithm := j.tag?.bind ofName?

end SigningAlgorithm

/-- A format by its name in any case. -/
def TokenFormat.parse (s : String) : Except SettingsFault TokenFormat :=
  let t := (Text.trim s).toLower
  match ofName? t with
  | some f => .ok f
  | none => .error (.unknownFormat t)

abbrev Environment : Type := String → Option String

structure TokenSettings where
  format : TokenFormat
  secret : String
  algorithm : SigningAlgorithm
  issuer : String
  audience : String
  accessLifetime : Int
  refreshLifetime : Int
  /-- Seconds between two sweeps. -/
  cleanupInterval : Nat
  /-- How often the revocation of a rotated token is tried. -/
  revokeAttempts : Nat
  deriving DecidableEq, Repr

namespace TokenSettings

def default : TokenSettings where
  format := .signed
  secret := ""
  algorithm := .hs256
  issuer := "warden"
  audience := "warden"
  accessLifetime := 900
  refreshLifetime := 604800
  cleanupInterval := 60
  revokeAttempts := 3

instance : Inhabited TokenSettings := ⟨default⟩

def signed (secret : String) : TokenSettings := { default with secret }

def opaqueValues : TokenSettings := { default with format := .opaqueValue }

def lifetime (s : TokenSettings) : TokenKind → Int
  | .access => s.accessLifetime
  | .refresh => s.refreshLifetime

def check (s : TokenSettings) : Except SettingsFault Unit :=
  if s.format = .signed ∧ s.secret = "" then .error .noSecret
  else if s.accessLifetime ≤ 0 then .error .accessLifetime
  else if s.refreshLifetime ≤ 0 then .error .refreshLifetime
  else if s.cleanupInterval = 0 then .error .cleanupInterval
  else .ok ()

def signedBound : Int := Nat.pow 2 63
def unsignedBound : Nat := Nat.pow 2 64
def attemptsBound : Nat := Nat.pow 2 32

def fieldNames : List String :=
  ["format", "secret", "algorithm", "issuer", "audience", "access_ttl_secs", "refresh_ttl_secs",
    "cleanup_interval_secs", "revoke_retry_attempts"]

def toJson (s : TokenSettings) : Json :=
  .obj [("access_ttl_secs", .int s.accessLifetime), ("algorithm", s.algorithm.toJson),
    ("audience", .str s.audience), ("cleanup_interval_secs", .int s.cleanupInterval),
    ("format", s.format.toJson), ("issuer", .str s.issuer),
    ("refresh_ttl_secs", .int s.refreshLifetime), ("revoke_retry_attempts", .int s.revokeAttempts)]

def seconds? : Json → Option Int := Json.intIn? (-signedBound) (signedBound - 1)

def ofJson? (j : Json) : Option TokenSettings := do
  let r ← j.record? fieldNames
  return {
    format := ← r.orElse TokenFormat.ofJson? "format" default.format
    secret := ← r.orElse Json.text? "secret" default.secret
    algorithm := ← r.orElse SigningAlgorithm.ofJson? "algorithm" default.algorithm
    issuer := ← r.orElse Json.text? "issuer" default.issuer
    audience := ← r.orElse Json.text? "audience" default.audience
    accessLifetime := ← r.orElse seconds? "access_ttl_secs" default.accessLifetime
    refreshLifetime := ← r.orElse seconds? "refresh_ttl_secs" default.refreshLifetime
    cleanupInterval := ← r.orElse (Json.natBelow? unsignedBound) "cleanup_interval_secs"
      default.cleanupInterval
    revokeAttempts := ← r.orElse (Json.natBelow? attemptsBound) "revoke_retry_attempts"
      default.revokeAttempts }

def variablePrefix : String := "WARDEN_"

def readSeconds (key text : String) : Except SettingsFault Int :=
  match Digits.signed? (Text.trim text).toList with
  | some n =>
    if -signedBound ≤ n ∧ n < signedBound then .ok n
    else .error (.notANumber (variablePrefix ++ key) text)
  | none => .error (.notANumber (variablePrefix ++ key) text)

def readCount (key text : String) : Except SettingsFault Nat :=
  match Digits.whole? (Text.trim text).toList with
  | some n => if n < unsignedBound then .ok n else .error (.notANumber (variablePrefix ++ key) text)
  | none => .error (.notANumber (variablePrefix ++ key) text)

/-- A variable that is set, as a value; otherwise the value there was. -/
def override {α : Type} (env : Environment) (key : String) (old : α)
    (read : String → Except SettingsFault α) : Except SettingsFault α :=
  match env (variablePrefix ++ key) with
  | some s => read s
  | none => .ok old

/-- The settings with what the environment overrides; an empty secret overrides nothing. -/
def overlay (s : TokenSettings) (env : Environment) : Except SettingsFault TokenSettings := do
  let secret ← override env "TOKEN_SECRET" s.secret fun t => .ok (if t = "" then s.secret else t)
  let format ← override env "TOKEN_FORMAT" s.format TokenFormat.parse
  let algorithm ← override env "TOKEN_ALGORITHM" s.algorithm SigningAlgorithm.parse
  let issuer ← override env "TOKEN_ISSUER" s.issuer .ok
  let audience ← override env "TOKEN_AUDIENCE" s.audience .ok
  let accessLifetime ←
    override env "ACCESS_TTL_SECS" s.accessLifetime (readSeconds "ACCESS_TTL_SECS")
  let refreshLifetime ←
    override env "REFRESH_TTL_SECS" s.refreshLifetime (readSeconds "REFRESH_TTL_SECS")
  let cleanupInterval ←
    override env "CLEANUP_INTERVAL_SECS" s.cleanupInterval (readCount "CLEANUP_INTERVAL_SECS")
  return { s with
    secret, format, algorithm, issuer, audience, accessLifetime, refreshLifetime, cleanupInterval }

end TokenSettings

end AccessControl
