import AccessControl.Cancellation
import AccessControl.Token.Settings
import AccessControl.Token.Verification

/-!
# Why token operations fail

That a value does not verify is an answer and no failure; it becomes one (`rejected`) where an
operation needs a valid token.
-/

namespace AccessControl

inductive ClaimsFault
  | noSubject
  | noScope
  | incomplete
  | reserved (keys : List String)
  | nested (keys : List String)
  deriving DecidableEq, Repr

def ClaimsFault.message : ClaimsFault → String
  | .noSubject => "subject_id is required"
  | .noScope => "tenant_id and app_id are required"
  | .incomplete => "subject_id, tenant_id and app_id are required"
  | .reserved keys => "reserved claim keys: " ++ Text.joinStrings ", " keys
  | .nested keys => "claims must be scalars or arrays of scalars: " ++ Text.joinStrings ", " keys

inductive CallFault
  /-- The collaborator is out of reach. -/
  | unavailable (reason : String)
  /-- The record belongs to another subject. -/
  | foreign (id : TokenId)
  /-- The request ended first. -/
  | cancelled (c : Cancelled)
  deriving DecidableEq, Repr

namespace CallFault

def kind : CallFault → String
  | .unavailable _ => "Unavailable"
  | .foreign _ => "SubjectMismatch"
  | .cancelled c => c.kind

/-- What was reported, without saying by whom. -/
def reason : CallFault → String
  | .unavailable reason => reason
  | .foreign id => "token " ++ id.text ++ " belongs to another subject"
  | .cancelled c => c.message

/-- What the token store reports. -/
def storeMessage : CallFault → String
  | .unavailable reason => "token store unavailable: " ++ reason
  | f => f.reason

def revocationMessage : CallFault → String
  | .unavailable reason => "revocation store unavailable: " ++ reason
  | f => f.reason

end CallFault

inductive TokenError
  | invalidClaims (f : ClaimsFault)
  | rejected (f : VerificationFailure)
  | revocations (f : CallFault)
  | store (f : CallFault)
  | settings (f : SettingsFault)
  | unsupported (f : TokenFormat)
  | cancelled (c : Cancelled)
  deriving DecidableEq, Repr

namespace TokenError

def message : TokenError → String
  | .invalidClaims f => "invalid claims: " ++ f.message
  | .rejected f => "token rejected: " ++ f.message
  | .revocations f => "revocation unavailable: " ++ f.reason
  | .store f => "token store error: " ++ f.storeMessage
  | .settings f => "invalid configuration: " ++ f.message
  | .unsupported f => "operation not supported for " ++ f.name ++ " tokens"
  | .cancelled c => c.message

def kind : TokenError → String
  | .invalidClaims _ => "InvalidClaims"
  | .rejected _ => "Rejected"
  | .revocations _ => "RevocationUnavailable"
  | .store _ => "Store"
  | .settings _ => "Config"
  | .unsupported _ => "Unsupported"
  | .cancelled c => c.kind

/-- The failure of an operation whose call to the store failed. -/
def ofStore : CallFault → TokenError
  | .cancelled c => .cancelled c
  | f => .store f

def ofRevocations : CallFault → TokenError
  | .cancelled c => .cancelled c
  | f => .revocations f

/-- The verification failure behind a rejection. -/
def rejection? : TokenError → Option VerificationFailure
  | .rejected f => some f
  | _ => none

end TokenError

end AccessControl
