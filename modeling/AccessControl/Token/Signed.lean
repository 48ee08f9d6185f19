import AccessControl.Bytes.Base64Url
import AccessControl.Json.Reader
import AccessControl.Json.Writer
import AccessControl.Token.Primitives
import AccessControl.Token.Verification

/-!
# Signed tokens

A signed value is a header, a payload and a tag, in base64 with dots between them. The tag is the
keyed hash of the text before it; nothing of the payload is looked at before header and tag have
been found in order. The payload holds the details of the token, issuer and audience next to the
caller's claims.
-/

namespace AccessControl

/-- Writes and reads signed values under one key. -/
structure SignedCodec where
  primitives : Primitives
  algorithm : SigningAlgorithm
  key : List UInt8
  issuer : String
  audience : String

namespace SignedCodec

def new? (p : Primitives) (s : TokenSettings) : Except SettingsFault SignedCodec :=
  if s.secret = "" then .error .noSecret
  else .ok ⟨p, s.algorithm, Text.bytes s.secret, s.issuer, s.audience⟩

def segment (j : Json) : List Char := Base64Url.encode (Text.bytes j.text)

/-- What a segment holds of the wanted shape. -/
def readSegment? (shape : Json.Shape) (cs : List Char) : Option Json := do
  let bs ← Base64Url.decode? cs
  let s ← Text.ofBytes? bs
  Json.read? shape Json.maxDepth s.toList

/-- The tag of a header and a payload segment with their dot. -/
def tag (k : SignedCodec) (message : List Char) : List Char :=
  Base64Url.encode (k.primitives.mac k.algorithm k.key (Text.bytes (String.ofList message)))

def header (a : SigningAlgorithm) : Json := .obj [("typ", .str "JWT"), ("alg", a.toJson)]

/-- The claims behind the fields of the format; times are written in whole seconds. -/
def payload (k : SignedCodec) (c : Claims) (d : TokenDetails) : Json :=
  .obj ([("jti", .str d.id.text), ("iat", .int d.issuedAt.seconds),
    ("exp", .int d.expiresAt.seconds), ("iss", .str k.issuer), ("aud", .str k.audience),
    ("token_kind", d.kind.toJson)] ++ c.entries.toList)

/-- The text that the tag of a token covers. -/
def message (k : SignedCodec) (c : Claims) (d : TokenDetails) : List Char :=
  segment (header k.algorithm) ++ '.' :: segment (k.payload c d)

def encode (k : SignedCodec) (c : Claims) (d : TokenDetails) : String :=
  String.ofList (k.message c d ++ '.' :: k.tag (k.message c d))

/-- The algorithms that a header may name; a codec accepts only its own. -/
def knownAlgorithms : List String :=
  ["HS256", "HS384", "HS512", "ES256", "ES384", "RS256", "RS384", "RS512", "PS256", "PS384",
    "PS512", "EdDSA"]

/-- The names of the algorithms that a key may be for. -/
def keyAlgorithms : List String :=
  knownAlgorithms ++ ["RSA1_5", "RSA-OAEP", "RSA-OAEP-256"]

/-- A key as an object: texts that say what it is for, and the numbers of one of four families. -/
def isKey (j : Json) : Bool :=
  match j with
  | .obj _ => (common? j).isSome && (family? j "EC" ["x", "y"] curves ||
      family? j "RSA" ["n", "e"] [] || family? j "oct" ["k"] [] || family? j "OKP" ["x"] curves)
  | _ => false
where
  curves : List String := ["P-256", "P-384", "P-521", "Ed25519"]
  common? (j : Json) : Option Unit := do
    let r ← j.record? ["use", "key_ops", "alg", "kid", "x5u", "x5c", "x5t", "x5t#S256"]
    for name in ["use", "kid", "x5u", "x5t", "x5t#S256"] do
      let _ ← r.optional Json.text? name
    for name in ["key_ops", "x5c"] do
      let _ ← r.optional Json.texts? name
    let _ ← r.optional (fun j => j.tag?.filter keyAlgorithms.contains) "alg"
  family? (j : Json) (kind : String) (numbers curves : List String) : Bool :=
    match j.record? (["kty", "crv"] ++ numbers) with
    | none => false
    | some r => (r.required Json.tag? "kty" == some kind) &&
        (curves.isEmpty || ((r.required Json.tag? "crv").any curves.contains)) &&
        numbers.all fun n => (r.required Json.text? n).isSome

def headerNames : List String :=
  ["typ", "alg", "cty", "jku", "jwk", "kid", "x5u", "x5c", "x5t", "x5t#S256"]

/-- The algorithm that a header names; its other fields must be texts, lists of texts or a key where
they are given. -/
def headerAlgorithm? (j : Json) : Option String := do
  let r ← j.record? headerNames
  for name in ["typ", "cty", "jku", "kid", "x5u", "x5t", "x5t#S256"] do
    let _ ← r.optional Json.text? name
  let _ ← r.optional Json.texts? "x5c"
  let _ ← r.optional (fun j => if isKey j then some () else none) "jwk"
  r.required (fun j => j.tag?.filter knownAlgorithms.contains) "alg"

def readHeader? (cs : List Char) : Option String :=
  (readSegment? (.fields (headerNames.map fun n => (n, .whole))) cs).bind headerAlgorithm?

structure Payload where
  id : String
  issuedAt : Int
  expiresAt : Int
  issuer : String
  audience : String
  kind : TokenKind
  claims : Claims

/-- The registered claim `sub`, if given, is not an array or an object. -/
def subjectFits : Json → Bool
  | .arr _ | .obj _ => false
  | _ => true

/-- The registered claim `nbf`, if given, is not an array or an object with content. -/
def notBeforeFits : Json → Bool
  | .arr (_ :: _) | .obj (_ :: _) => false
  | _ => true

/-- The payload of an object: the fields of the format are not repeated, and all other fields are
claims. -/
def payload? (j : Json) : Option Payload :=
  match j with
  | .obj fields => do
    let r ← j.record? Claims.reserved
    let registered ← j.record? ["sub", "nbf"]
    if ((registered.get? "sub").all subjectFits &&
        (registered.get? "nbf").all notBeforeFits) = false then
      none
    return {
      id := ← r.required Json.text? "jti"
      issuedAt := ← r.required TokenSettings.seconds? "iat"
      expiresAt := ← r.required TokenSettings.seconds? "exp"
      issuer := ← r.required Json.text? "iss"
      audience := ← r.required Json.text? "aud"
      kind := ← r.required TokenKind.ofJson? "token_kind"
      claims := ⟨.ofList ((fields.filter fun f => !Claims.reserved.contains f.1).map
        fun f => (f.1, f.2.canonical))⟩ }
  | _ => none

def readPayload? (cs : List Char) : Option Payload := (readSegment? .whole cs).bind payload?

def verified? (p : Payload) : Option Verified := do
  let issuedAt ← Instant.ofSeconds? p.issuedAt
  let expiresAt ← Instant.ofSeconds? p.expiresAt
  if Text.isBlank p.id then none else some ⟨p.claims, ⟨⟨p.id⟩, p.kind, issuedAt, expiresAt⟩⟩

/-- A value cut into the text that is signed, its two segments, and the tag. -/
def parts? (value : String) : Option (List Char × (List Char × List Char) × List Char) := do
  let (message, tag) ← Text.cutLast? '.' value.toList
  let parts ← Text.cutLast? '.' message
  return (message, parts, tag)

/-- The token that a value is, or the first check that it fails. -/
def decode (k : SignedCodec) (value : String) : Except VerificationFailure Verified := do
  let some (message, (headerPart, payloadPart), tag) := parts? value | throw .malformed
  let some algorithm := readHeader? headerPart | throw .malformed
  if algorithm ≠ k.algorithm.name then throw .invalidSignature
  if tag ≠ k.tag message then throw .invalidSignature
  let some p := readPayload? payloadPart | throw .malformed
  if p.expiresAt < 0 then throw .malformed
  if p.issuer ≠ k.issuer then throw .invalidSignature
  if p.audience ≠ k.audience then throw .invalidSignature
  let some v := verified? p | throw .malformed
  return v

end SignedCodec

end AccessControl
