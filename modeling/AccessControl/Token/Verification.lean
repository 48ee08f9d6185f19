import AccessControl.Token.Basic

/-!
# What verification says

A value verifies as the claims and details of a token, or fails for a reason. `Verification` is the
report of that; a report that is put together otherwise is read with care: it counts as valid only
if it says so and is complete.
-/

namespace AccessControl

inductive VerificationFailure
  | malformed
  | invalidSignature
  | notFound
  | expired
  | revoked
  | missingScope
  | wrongKind
  deriving DecidableEq, Repr

namespace VerificationFailure

def name : VerificationFailure → String
  | .malformed => "malformed"
  | .invalidSignature => "invalid_signature"
  | .notFound => "not_found"
  | .expired => "expired"
  | .revoked => "revoked"
  | .missingScope => "missing_scope"
  | .wrongKind => "wrong_kind"

def message : VerificationFailure → String
  | .malformed => "malformed token"
  | .invalidSignature => "invalid signature"
  | .notFound => "token not found"
  | .expired => "token expired"
  | .revoked => "token revoked"
  | .missingScope => "token missing tenant or app scope"
  | .wrongKind => "token kind not accepted here"

def all : List VerificationFailure :=
  [malformed, invalidSignature, notFound, expired, revoked, missingScope, wrongKind]

def ofName? (s : String) : Option VerificationFailure := all.find? (·.name = s)

/-- The failures that hint at tampering. -/
def isSuspicious : VerificationFailure → Bool
  | .malformed | .invalidSignature => true
  | _ => false

def toJson (f : VerificationFailure) : Json := .str f.name

def ofJson? (j : Json) : Option VerificationFailure := j.tag?.bind ofName?

end VerificationFailure

structure Verified where
  claims : Claims
  details : TokenDetails
  deriving DecidableEq

namespace Verified

def toJson (v : Verified) : Json :=
  .obj [("claims", v.claims.toJson), ("details", v.details.toJson)]

end Verified

structure Verification where
  valid : Bool
  claims : Option Claims
  details : Option TokenDetails
  failure : Option VerificationFailure
  deriving DecidableEq

namespace Verification

def ofResult : Except VerificationFailure Verified → Verification
  | .ok v => ⟨true, some v.claims, some v.details, none⟩
  | .error f => ⟨false, none, none, some f⟩

def kind? (r : Verification) : Option TokenKind := r.details.map (·.kind)

/-- What a report says; one that is neither valid and complete nor names a failure is malformed. -/
def result (r : Verification) : Except VerificationFailure Verified :=
  match r.valid, r.claims, r.details with
  | true, some c, some d => .ok ⟨c, d⟩
  | _, _, _ => .error (r.failure.getD .malformed)

@[simp] theorem result_ofResult (e : Except VerificationFailure Verified) :
    (ofResult e).result = e := by
  cases e <;> rfl

def toJson (r : Verification) : Json :=
  .obj [("claims", .ofOption Claims.toJson r.claims),
    ("details", .ofOption TokenDetails.toJson r.details),
    ("failure", .ofOption VerificationFailure.toJson r.failure),
    ("kind", .ofOption TokenKind.toJson r.kind?), ("valid", .bool r.valid)]

end Verification

end AccessControl
