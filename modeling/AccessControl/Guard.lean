import AccessControl.Bearer
import AccessControl.Deployment
import AccessControl.Pipeline
import AccessControl.Token.Manager

/-!
# Guards

A guard admits a caller to a resource in three stages: the bearer value is verified as an access
token, the identity of its subject is resolved, and the pipeline decides. It stops at the first stage
that refuses; a failure of a collaborator is an error, which is never an admission.
-/

namespace AccessControl

structure Intent where
  resource : Resource
  action : String
  context : SortedMap String Json

inductive GuardStage
  | authentication
  | authorization
  deriving DecidableEq, Repr

def GuardStage.name : GuardStage → String
  | .authentication => "authentication"
  | .authorization => "authorization"

/-- A refusal. The reason is not for the caller. -/
structure Refusal where
  stage : GuardStage
  reason : String
  failure : Option VerificationFailure
  deriving DecidableEq, Repr

namespace Refusal

/-- A refusal to say who the caller is. -/
def unauthenticated (reason : String) (failure : Option VerificationFailure) : Refusal :=
  ⟨.authentication, reason, failure⟩

def publicMessage (r : Refusal) : String :=
  match r.stage with
  | .authentication => "authentication required"
  | .authorization => Decision.accessDenied

end Refusal

/-- An admission: who was admitted, and the decision that did it. -/
structure Admission where
  identity : Identity
  decision : Decision
  deriving DecidableEq

inductive GuardError
  | tokens (e : TokenError)
  | identity (e : IdentityError)
  | authorization (e : DecisionError)
  deriving DecidableEq, Repr

def GuardError.message : GuardError → String
  | .tokens e => e.message
  | .identity e => e.message
  | .authorization e => e.message

def GuardError.kind : GuardError → String × String
  | .tokens e => (e.kind, "tokens")
  | .identity e => (e.kind, "identity")
  | .authorization e => (e.kind, "authorization")

abbrev GuardAnswer : Type := Except GuardError (Except Refusal Admission)

structure Guard where
  tokens : TokenManager
  sources : Sources
  pipeline : Pipeline

namespace Guard

/-- The guard that looks at scope first and then asks a model. -/
def ofModel (tokens : TokenManager) (sources : Sources) (m : Model) : Guard :=
  ⟨tokens, sources, .ofModel m⟩

/-- Who a verified value speaks for, and the session that it opens. -/
def holder (x : Except VerificationFailure Verified) : Except Refusal (Subject × Session) :=
  match x with
  | .error f => .error (.unauthenticated f.message (some f))
  | .ok v =>
    if v.details.kind ≠ .access then
      .error (.unauthenticated
        (v.details.kind.name ++ " token " ++ v.details.id.text ++ " presented for access")
        (some .wrongKind))
    else match Subject.ofClaims v.claims with
      | .error e => .error (.unauthenticated e.message none)
      | .ok s => .ok (s, ⟨v.details.id, v.details.issuedAt, v.details.expiresAt⟩)

/-- What comes of a resolved identity: claims that cannot be used are the caller's fault. -/
def identified : Except IdentityError Identity → Except GuardError (Except Refusal Identity)
  | .ok i => .ok (.ok i)
  | .error (.unusable e) => .ok (.error (.unauthenticated e.message none))
  | .error e => .error (.identity e)

/-- The decision of the pipeline on an identity's intent. -/
def authorizeIdentity (g : Guard) (rights : Rights) (now : Instant) (i : Identity) (t : Intent) :
    GuardAnswer :=
  match g.pipeline.run rights now ⟨i, t.resource, t.action, t.context⟩ with
  | .error e => .error (.authorization e)
  | .ok d =>
    if d.allowed then .ok (.ok ⟨i, d⟩)
    else .ok (.error ⟨.authorization, d.model ++ ": " ++ d.reason, none⟩)

/-- Admits the bearer of a value, or refuses. -/
def authorize (g : Guard) (d : Deployment) (ended : Option Cancelled) (value : String)
    (t : Intent) :
    Outcome GuardAnswer × Deployment :=
  let (x, d) := d.run ended (g.tokens.verify value).run
  match x with
  | .aborted => (.aborted, d)
  | .stuck => (.stuck, d)
  | .done (.error e) => (.done (.error (.tokens e)), d)
  | .done (.ok x) => match holder x with
    | .error r => (.done (.ok (.error r)), d)
    | .ok (s, session) =>
      let (x, d) := d.identify g.sources ended s
      match x with
      | .aborted => (.aborted, d)
      | .stuck => (.stuck, d)
      | .done x => match identified x with
        | .error e => (.done (.error e), d)
        | .ok (.error r) => (.done (.ok (.error r)), d)
        | .ok (.ok i) =>
          (.done (g.authorizeIdentity d.rights d.clock { i with session := some session } t), d)

def authorizeHeader (g : Guard) (d : Deployment) (ended : Option Cancelled) (header : Option String)
    (t : Intent) : Outcome GuardAnswer × Deployment :=
  match header.bind Bearer.value? with
  | some value => g.authorize d ended value t
  | none =>
    (.done (.ok (.error (.unauthenticated "missing or malformed bearer credentials" none))), d)

end Guard

end AccessControl
