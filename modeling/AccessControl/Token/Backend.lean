import AccessControl.Outage
import AccessControl.Token.Procedure

/-!
# Token backends

What answers the questions of token operations: a clock that is set from outside, a supply of fresh
values, a store and a revocation list in memory. `Backend.answer` never fails; `Backend.respond`
answers over lines that may be disturbed, where a disturbed call has no effect.
-/

namespace AccessControl

/-- Fresh identifiers and values, numbered in order of drawing. -/
structure Supply where
  id : Nat → TokenId
  value : Nat → String

namespace Supply

/-- The number `n` in decimal digits after zeros, `width` characters in all. -/
def numbered (width n : Nat) : String :=
  let ds := (Nat.repr n).toList
  String.ofList (List.replicate (width - ds.length) '0' ++ ds)

def counting : Supply where
  id n := ⟨"00000000-0000-7000-8000-" ++ numbered 12 n⟩
  value n := numbered 64 n

end Supply

structure Backend where
  clock : Instant
  supply : Supply
  drawn : Nat
  store : TokenStore
  revocations : RevocationList

namespace Backend

def new (clock : Instant) (supply : Supply) : Backend := ⟨clock, supply, 0, .empty, .empty⟩

/-- A deletion or revocation that names the wrong subject is refused. -/
def owned : Except ForeignRecord Bool → Except CallFault Bool
  | .ok b => .ok b
  | .error f => .error (.foreign f.id)

/-- The answer to a question, and the backend after it. -/
def answer (b : Backend) : (q : Ask) → q.Answer × Backend
  | .now => (b.clock, b)
  | .freshId => (b.supply.id b.drawn, { b with drawn := b.drawn + 1 })
  | .freshValue => (b.supply.value b.drawn, { b with drawn := b.drawn + 1 })
  | .insertRecord r => (.ok (), { b with store := b.store.insert r })
  | .findRecord id => (.ok (b.store.find? id), b)
  | .deleteRecord s id =>
    (owned (b.store.delete s id).1, { b with store := (b.store.delete s id).2 })
  | .listRecords t s => (.ok (b.store.list t s), b)
  | .revokeRecord s id t =>
    (owned (b.store.revoke s id t).1, { b with store := (b.store.revoke s id t).2 })
  | .cleanupRecords t =>
    (.ok (b.store.size - (b.store.cleanup t).size), { b with store := b.store.cleanup t })
  | .addRevocation id t =>
    (.ok (b.revocations.add id t).1, { b with revocations := (b.revocations.add id t).2 })
  | .findRevocation id => (.ok (b.revocations.contains id), b)
  | .cleanupRevocations t =>
    (.ok (b.revocations.size - (b.revocations.cleanup t).size),
      { b with revocations := b.revocations.cleanup t })

theorem answer_clock (b : Backend) (q : Ask) : (b.answer q).2.clock = b.clock := by
  cases q <;> rfl

theorem answer_supply (b : Backend) (q : Ask) : (b.answer q).2.supply = b.supply := by
  cases q <;> rfl

theorem drawn_le_answer (b : Backend) (q : Ask) : b.drawn ≤ (b.answer q).2.drawn := by
  cases q <;> simp [answer]

end Backend

namespace Ask

def target? : Ask → Option Target
  | now | freshId | freshValue => none
  | insertRecord _ => some .storeInsert
  | findRecord _ => some .storeFind
  | deleteRecord _ _ => some .storeDelete
  | listRecords _ _ => some .storeList
  | revokeRecord _ _ _ => some .storeRevoke
  | cleanupRecords _ => some .storeCleanup
  | addRevocation _ _ => some .revocationAdd
  | findRevocation _ => some .revocationLookup
  | cleanupRevocations _ => some .revocationCleanup

/-- The failure of a question, of those that can fail. -/
def failure? (f : CallFault) : (q : Ask) → Option q.Answer
  | now | freshId | freshValue => none
  | insertRecord _ | findRecord _ | deleteRecord _ _ | listRecords _ _ | revokeRecord _ _ _
  | cleanupRecords _ | addRevocation _ _ | findRevocation _ | cleanupRevocations _ =>
    some (.error f)

/-- The untrue answer to a question: that a token is not revoked. -/
def lie? : (q : Ask) → Option q.Answer
  | findRevocation _ => some (.ok false)
  | _ => none

end Ask

namespace Backend

/-- Answers a question over the lines, for a request that may have ended. -/
def respond (ended : Option Cancelled) :
    Procedure.Responder (Backend × Lines) := fun q bound (b, ls) =>
  let honest (ls : Lines) := (some (b.answer q).1, ((b.answer q).2, ls))
  match q.target? with
  | none => honest ls
  | some t =>
    let (fault, ls) := ls.call t
    match fault with
    | none => honest ls
    | some .offline | some (.givenUp _) => (q.failure? (.unavailable t.offlineText), (b, ls))
    | some .hang =>
      ((if bound then ended else none).bind fun c => q.failure? (.cancelled c), (b, ls))
    | some .lie => match q.lie? with
      | some x => (some x, (b, ls))
      | none => honest ls

/-- Whatever is disturbed, a question has its effect or none, takes one call from its line, and is
answered truly, by its failure or by its lie. -/
theorem respond_effect (ended : Option Cancelled) (q : Ask) (bound : Bool) (b : Backend)
    (ls : Lines) :
    ((respond ended q bound (b, ls)).2.1 = b ∨
      (respond ended q bound (b, ls)).2.1 = (b.answer q).2) ∧
    (respond ended q bound (b, ls)).2.2 = (match q.target? with
      | none => ls
      | some t => (ls.call t).2) ∧
    ∀ x, (respond ended q bound (b, ls)).1 = some x →
      x = (b.answer q).1 ∨ (∃ f, q.failure? f = some x) ∨ q.lie? = some x := by
  unfold respond
  simp only
  cases q.target? with
  | none => exact ⟨.inr rfl, rfl, fun x hx => .inl (Option.some.inj hx).symm⟩
  | some t =>
    simp only
    cases (ls.call t).1 with
    | none => exact ⟨.inr rfl, rfl, fun x hx => .inl (Option.some.inj hx).symm⟩
    | some fault =>
      cases fault with
      | offline => exact ⟨.inl rfl, rfl, fun x hx => .inr (.inl ⟨_, hx⟩)⟩
      | givenUp c => exact ⟨.inl rfl, rfl, fun x hx => .inr (.inl ⟨_, hx⟩)⟩
      | hang =>
        refine ⟨.inl rfl, rfl, fun x hx => .inr (.inl ?_)⟩
        obtain ⟨c, -, hc⟩ := Option.bind_eq_some_iff.1 hx
        exact ⟨_, hc⟩
      | lie =>
        cases q.lie? with
        | none => exact ⟨.inr rfl, rfl, fun x hx => .inl (Option.some.inj hx).symm⟩
        | some y => exact ⟨.inl rfl, rfl, fun x hx => .inr (.inr hx)⟩

/-- Runs a procedure on a backend that never fails. -/
def run {α : Type} (p : Procedure α) (b : Backend) : Outcome α × Backend :=
  p.run (fun q _ b => (some (b.answer q).1, (b.answer q).2)) b

end Backend

end AccessControl
