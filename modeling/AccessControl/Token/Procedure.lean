import AccessControl.Outcome
import AccessControl.Token.Error
import AccessControl.Token.Record
import AccessControl.Token.RevocationList

/-!
# Procedures

What a token operation does, as a tree of questions to its surroundings: the clock, the source of
fresh values, the token store and the revocation list. Each question is one atomic step, so the
steps of several operations can be taken in any order. `Procedure.run` answers them one after the
other.
-/

namespace AccessControl

inductive Ask
  | now
  /-- An identifier that was never given out. -/
  | freshId
  /-- An opaque value that was never given out. -/
  | freshValue
  | insertRecord (r : TokenRecord)
  | findRecord (id : TokenId)
  | deleteRecord (subject : SubjectId) (id : TokenId)
  | listRecords (tenant : TenantId) (subject : SubjectId)
  | revokeRecord (subject : SubjectId) (id : TokenId) (time : Instant)
  | cleanupRecords (time : Instant)
  | addRevocation (id : TokenId) (expiresAt : Instant)
  | findRevocation (id : TokenId)
  | cleanupRevocations (time : Instant)

abbrev Ask.Answer : Ask → Type
  | now => Instant
  | freshId => TokenId
  | freshValue => String
  | insertRecord _ => Except CallFault Unit
  | findRecord _ => Except CallFault (Option TokenRecord)
  | listRecords _ _ => Except CallFault (List TokenRecord)
  | deleteRecord _ _ | revokeRecord _ _ _ | addRevocation _ _ | findRevocation _ =>
    Except CallFault Bool
  | cleanupRecords _ | cleanupRevocations _ => Except CallFault Nat

/-- A procedure with a result of type `α`. A question that is `bound` to the request is given up
when the request ends before the answer comes. -/
inductive Procedure (α : Type)
  | done (a : α)
  /-- A time is not representable. -/
  | abort
  | ask (q : Ask) (bound : Bool) (next : q.Answer → Procedure α)

namespace Procedure

variable {α β : Type}

def bind : Procedure α → (α → Procedure β) → Procedure β
  | done a, f => f a
  | abort, _ => abort
  | ask q b next, f => ask q b fun x => (next x).bind f

instance : Monad Procedure where
  pure := done
  bind := bind

@[simp] theorem pure_eq (a : α) : (pure a : Procedure α) = done a := rfl

@[simp] theorem bind_eq (x : Procedure α) (f : α → Procedure β) : x >>= f = x.bind f := rfl

@[simp] theorem done_bind (a : α) (f : α → Procedure β) : (done a).bind f = f a := rfl

@[simp] theorem abort_bind (f : α → Procedure β) : (abort : Procedure α).bind f = abort := rfl

@[simp] theorem ask_bind (q : Ask) (b : Bool) (next : q.Answer → Procedure α)
    (f : α → Procedure β) :
    (ask q b next).bind f = ask q b fun x => (next x).bind f := rfl

theorem bind_done (x : Procedure α) : x.bind done = x := by
  induction x with
  | done a => rfl
  | abort => rfl
  | ask q b next ih => simp [ih]

theorem bind_assoc {γ : Type} (x : Procedure α) (f : α → Procedure β) (g : β → Procedure γ) :
    (x.bind f).bind g = x.bind fun a => (f a).bind g := by
  induction x with
  | done a => rfl
  | abort => rfl
  | ask q b next ih => simp [ih]

instance : LawfulMonad Procedure :=
  .mk' Procedure (fun x => bind_done x) (fun _ _ => rfl) bind_assoc

/-- A question whose answer waits for as long as it takes. -/
def call (q : Ask) : Procedure q.Answer := ask q false done

/-- A question that is given up with the request. -/
def boundCall (q : Ask) : Procedure q.Answer := ask q true done

/-- Answers questions, keeping a state; there is no answer to a question that is never answered. -/
abbrev Responder (σ : Type) : Type := (q : Ask) → (bound : Bool) → σ → Option q.Answer × σ

/-- Answers the questions of a procedure one after the other. -/
def run {σ : Type} (respond : Responder σ) : Procedure α → σ → Outcome α × σ
  | done a, s => (.done a, s)
  | abort, s => (.aborted, s)
  | ask q b next, s =>
    match respond q b s with
    | (some x, s) => run respond (next x) s
    | (none, s) => (.stuck, s)

@[simp] theorem run_done {σ : Type} (respond : Responder σ) (a : α) (s : σ) :
    run respond (done a) s = (.done a, s) := rfl

@[simp] theorem run_abort {σ : Type} (respond : Responder σ) (s : σ) :
    run respond (abort : Procedure α) s = (.aborted, s) := rfl

/-- A procedure that starts with another one runs that one first. -/
theorem run_bind {σ : Type} (respond : Responder σ) (x : Procedure α) (f : α → Procedure β)
    (s : σ) :
    run respond (x.bind f) s =
      match run respond x s with
      | (.done a, s) => run respond (f a) s
      | (.aborted, s) => (.aborted, s)
      | (.stuck, s) => (.stuck, s) := by
  induction x generalizing s with
  | done a => rfl
  | abort => rfl
  | ask q b next ih =>
    rw [ask_bind, run, run]
    split
    · exact ih _ _
    · rfl

end Procedure

/-- A token operation: a procedure that may fail. -/
abbrev Operation (α : Type) : Type := ExceptT TokenError Procedure α

namespace Operation

variable {α β : Type}

/-- A call whose failure ends the operation. -/
def checked (fault : CallFault → TokenError) (p : Procedure (Except CallFault α)) : Operation α :=
  ExceptT.mk (p.bind fun r => .done (r.mapError fault))

/-- A time that has to be representable. -/
def representable (t : Option Instant) : Operation Instant :=
  ExceptT.mk (match t with | some t => .done (.ok t) | none => .abort)

/-- An operation that starts with another one runs that one first, and fails if that one does. -/
theorem run_bind {σ : Type} (respond : Procedure.Responder σ) (x : Operation α)
    (f : α → Operation β) (s : σ) :
    (x >>= f).run.run respond s =
      match x.run.run respond s with
      | (.done (.ok a), s) => (f a).run.run respond s
      | (.done (.error e), s) => (.done (.error e), s)
      | (.aborted, s) => (.aborted, s)
      | (.stuck, s) => (.stuck, s) := by
  show Procedure.run respond (Procedure.bind x.run _) s = _
  rw [Procedure.run_bind]
  rcases x.run.run respond s with ⟨(_ | _) | _ | _, s'⟩ <;> rfl

end Operation

end AccessControl
