import AccessControl.Token.Backend
import AccessControl.Token.Manager
import AccessControl.Token.Sweep

/-!
# Runs of token requests

What a deployment can ask of a token manager as one type of requests with one type of replies, and
the runs that serve one request after the other on a backend that never fails, with the clock moved
forward in between. A statement about every `Runs` is one about every order and number of requests.
-/

namespace AccessControl

/-- Something that is asked of a token manager, or of the sweep of its backend. -/
inductive TokenRequest
  | generate (c : Claims) (kind : TokenKind)
  | verify (value : String)
  | refresh (value : String)
  | revoke (value : String)
  | revokeAll (tenant : TenantId) (subject : SubjectId)
  | sweep

inductive TokenReply
  | token (r : Except TokenError Token)
  | verdict (r : Except TokenError (Except VerificationFailure Verified))
  | pair (r : Except TokenError TokenPair)
  | revoked (r : Except TokenError Unit)
  | count (r : Except TokenError Nat)
  | swept (r : SweepReport)

def TokenReply.tokens : TokenReply → List Token
  | token (.ok t) => [t]
  | pair (.ok p) => [p.access, p.refresh]
  | _ => []

namespace TokenManager

def serve (m : TokenManager) : TokenRequest → Procedure TokenReply
  | .generate c kind => (m.generate c kind).run.bind fun r => .done (.token r)
  | .verify value => (m.verify value).run.bind fun r => .done (.verdict r)
  | .refresh value => (m.refresh value).run.bind fun r => .done (.pair r)
  | .revoke value => (m.revoke value).run.bind fun r => .done (.revoked r)
  | .revokeAll tenant subject => (m.revokeAll tenant subject).run.bind fun r => .done (.count r)
  | .sweep => (AccessControl.sweep m.hasStore).bind fun r => .done (.swept r)

end TokenManager

/-- What happens in a run: a request is served, or the clock moves. -/
inductive TokenEvent
  | served (q : TokenRequest) (answer : Outcome TokenReply)
  | clock (t : Instant)

def TokenEvent.issued : TokenEvent → List Token
  | served _ (.done r) => r.tokens
  | _ => []

def Backend.serve (b : Backend) (m : TokenManager) (q : TokenRequest) : Outcome TokenReply × Backend :=
  b.run (m.serve q)

/-- A moment that a clock can show: the fraction is below two seconds, and one second or more only
inside a leap second. -/
def Instant.IsReading (t : Instant) : Prop := t.nanos < 2000000000

instance (t : Instant) : Decidable t.IsReading := Nat.decLt ..

/-- The runs from one backend to another, with their events; the clock does not go backwards. -/
inductive TokenManager.Runs (m : TokenManager) : Backend → List TokenEvent → Backend → Prop
  | stop (b : Backend) : Runs m b [] b
  | serve {b b' : Backend} {es : List TokenEvent} (q : TokenRequest)
    (h : Runs m (b.serve m q).2 es b') : Runs m b (.served q (b.serve m q).1 :: es) b'
  | clock {b b' : Backend} {es : List TokenEvent} {t : Instant} (hread : t.IsReading)
    (hle : b.clock ≤ t) (h : Runs m { b with clock := t } es b') : Runs m b (.clock t :: es) b'

/-- A run reaches a backend after each of its events. -/
theorem TokenManager.Runs.split {m : TokenManager} {es es' : List TokenEvent} {b b'' : Backend}
    (h : m.Runs b (es ++ es') b'') : ∃ b', m.Runs b es b' ∧ m.Runs b' es' b'' := by
  induction es generalizing b with
  | nil => exact ⟨b, .stop b, h⟩
  | cons e es ih =>
    cases h with
    | serve q h =>
      obtain ⟨b', hb, hb'⟩ := ih h
      exact ⟨b', .serve q hb, hb'⟩
    | clock hread hle h =>
      obtain ⟨b', hb, hb'⟩ := ih h
      exact ⟨b', .clock hread hle hb, hb'⟩

end AccessControl
