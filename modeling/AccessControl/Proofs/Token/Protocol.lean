import AccessControl.Token.Backend

/-!
# What an operation asks

A protocol says which questions an operation may ask and which answers it can count on. `Follows`
says of an operation that it keeps to a protocol, and how it ends when the answers are as expected;
there is one rule for every way to build an operation. What answers as expected keeps its invariants
over the whole operation (`Procedure.Follows.run`).
-/

namespace AccessControl

structure Exchange where
  question : Ask
  answer : question.Answer

/-- One of the exchanges is of a kind. -/
def Trace (p : Exchange → Prop) (past : List Exchange) : Prop := ∃ x ∈ past, p x

@[simp] theorem trace_nil {p : Exchange → Prop} : ¬Trace p [] := by simp [Trace]

@[simp] theorem trace_append {p : Exchange → Prop} {past : List Exchange} {x : Exchange} :
    Trace p (past ++ [x]) ↔ Trace p past ∨ p x := by
  simp [Trace, or_and_right, exists_or]

theorem Trace.mono {p : Exchange → Prop} {past past' : List Exchange} (h : Trace p past)
    (hle : past <+: past') : Trace p past' :=
  let ⟨x, hx, hp⟩ := h
  ⟨x, hle.subset hx, hp⟩

/-- Rules for a call: what it may ask after the exchanges it had, which answers it can count on, and
when it may be broken off. -/
structure Protocol where
  may : List Exchange → Ask → Prop
  expect : (q : Ask) → q.Answer → Prop
  mayAbort : List Exchange → Prop

namespace Procedure

variable {α β : Type} {P : Protocol} {ends : List Exchange → α → Prop} {past : List Exchange}

/-- After the exchanges `past`, the procedure keeps to a protocol and ends in one of the given
ways. -/
def Follows (P : Protocol) (ends : List Exchange → α → Prop) : List Exchange → Procedure α → Prop
  | past, done a => ends past a
  | past, abort => P.mayAbort past
  | past, ask q _ next =>
    P.may past q ∧ ∀ x, P.expect q x → Follows P ends (past ++ [⟨q, x⟩]) (next x)

theorem Follows.bind {ends' : List Exchange → β → Prop} {x : Procedure α} {f : α → Procedure β}
    (hx : x.Follows P ends past) (hf : ∀ past a, ends past a → (f a).Follows P ends' past) :
    (x.bind f).Follows P ends' past := by
  induction x generalizing past with
  | done a => exact hf past a hx
  | abort => exact hx
  | ask q bound next ih => exact ⟨hx.1, fun x hexpect => ih x (hx.2 x hexpect)⟩

theorem Follows.mono {ends' : List Exchange → α → Prop} {x : Procedure α}
    (hx : x.Follows P ends past) (h : ∀ past a, ends past a → ends' past a) :
    x.Follows P ends' past := by
  rw [← bind_done x]
  exact hx.bind h

/-- A procedure that keeps to a protocol adds to the exchanges that it had. -/
theorem Follows.extends {x : Procedure α} (hx : x.Follows P ends past) :
    x.Follows P (fun past' a => past <+: past' ∧ ends past' a) past := by
  induction x generalizing past with
  | done a => exact ⟨List.prefix_rfl, hx⟩
  | abort => exact hx
  | ask q bound next ih =>
    refine ⟨hx.1, fun y hy => (ih y (hx.2 y hy)).mono fun past' a h => ?_⟩
    exact ⟨(List.prefix_append _ _).trans h.1, h.2⟩

/-- A responder that gives the expected answers, and keeps an invariant where it is asked what a
procedure may ask, keeps it over the whole procedure. -/
theorem Follows.run {σ : Type} {respond : Responder σ} {I : σ → Prop} {x : Procedure α} {s : σ}
    (hx : x.Follows P ends past) (hI : I s)
    (hrespond : ∀ past q bound s, P.may past q → I s →
      I (respond q bound s).2 ∧ ∀ y, (respond q bound s).1 = some y → P.expect q y) :
    I (x.run respond s).2 := by
  induction x generalizing past s with
  | done a => exact hI
  | abort => exact hI
  | ask q bound next ih =>
    obtain ⟨hkept, hexpect⟩ := hrespond past q bound s hx.1 hI
    rw [Procedure.run]
    generalize respond q bound s = r at hkept hexpect ⊢
    obtain ⟨_ | y, s'⟩ := r
    · exact hkept
    · exact ih y (hx.2 y (hexpect y rfl)) hkept

/-- Where a projection of the state answers like the state itself, all that a procedure may ask, it
gives the procedure the same result. -/
theorem Follows.run_eq {σ : Type} {respond : Responder σ} {I : σ → Prop} {f : σ → σ}
    {x : Procedure α} {s : σ} (hx : x.Follows P ends past) (hI : I s)
    (hrespond : ∀ past q bound s, P.may past q → I s →
      I (respond q bound s).2 ∧ (∀ y, (respond q bound s).1 = some y → P.expect q y) ∧
        respond q bound (f s) = ((respond q bound s).1, f (respond q bound s).2)) :
    x.run respond (f s) = ((x.run respond s).1, f (x.run respond s).2) := by
  induction x generalizing past s with
  | done a => rfl
  | abort => rfl
  | ask q bound next ih =>
    obtain ⟨hkept, hexpect, heq⟩ := hrespond past q bound s hx.1 hI
    rw [Procedure.run, Procedure.run, heq]
    generalize respond q bound s = r at hkept hexpect ⊢
    obtain ⟨_ | y, s'⟩ := r
    · rfl
    · exact ih y (hx.2 y (hexpect y rfl)) hkept

theorem follows_call {q : Ask} {ends : List Exchange → q.Answer → Prop} (hmay : P.may past q)
    (h : ∀ x, P.expect q x → ends (past ++ [⟨q, x⟩]) x) : (call q).Follows P ends past :=
  ⟨hmay, h⟩

theorem follows_boundCall {q : Ask} {ends : List Exchange → q.Answer → Prop} (hmay : P.may past q)
    (h : ∀ x, P.expect q x → ends (past ++ [⟨q, x⟩]) x) : (boundCall q).Follows P ends past :=
  ⟨hmay, h⟩

end Procedure

namespace Operation

variable {α β : Type} {P : Protocol} {past : List Exchange}
  {ends : List Exchange → Except TokenError α → Prop}

/-- An operation keeps to a protocol. -/
def Follows (P : Protocol) (ends : List Exchange → Except TokenError α → Prop)
    (past : List Exchange) (x : Operation α) : Prop := x.run.Follows P ends past

theorem follows_pure {a : α} (h : ends past (.ok a)) : Follows P ends past (pure a) := h

theorem follows_throw {e : TokenError} (h : ends past (.error e)) :
    Follows P ends past (throw e) := h

theorem Follows.bind {ends' : List Exchange → Except TokenError β → Prop} {x : Operation α}
    {f : α → Operation β} (hx : Follows P ends past x)
    (hok : ∀ past a, ends past (.ok a) → Follows P ends' past (f a))
    (herror : ∀ past e, ends past (.error e) → ends' past (.error e)) :
    Follows P ends' past (x >>= f) := by
  refine Procedure.Follows.bind hx fun past r h => ?_
  cases r with
  | ok a => exact hok past a h
  | error e => exact herror past e h

theorem Follows.tryCatch {ends' : List Exchange → Except TokenError α → Prop} {x : Operation α}
    {f : TokenError → Operation α} (hx : Follows P ends past x)
    (hok : ∀ past a, ends past (.ok a) → ends' past (.ok a))
    (herror : ∀ past e, ends past (.error e) → Follows P ends' past (f e)) :
    Follows P ends' past (tryCatch x f) := by
  refine Procedure.Follows.bind hx fun past r h => ?_
  cases r with
  | ok a => exact hok past a h
  | error e => exact herror past e h

theorem follows_checked {fault : CallFault → TokenError} {p : Procedure (Except CallFault α)}
    (h : p.Follows P (fun past r => ends past (r.mapError fault)) past) :
    Follows P ends past (checked fault p) :=
  Procedure.Follows.bind h fun _ _ h => h

/-- An operation keeps to a protocol and does not fail. -/
def Succeeds (P : Protocol) (gives : List Exchange → α → Prop) (past : List Exchange)
    (x : Operation α) : Prop :=
  Follows P (fun past r => ∃ a, r = .ok a ∧ gives past a) past x

variable {gives : List Exchange → α → Prop}

theorem Succeeds.bind {ends : List Exchange → Except TokenError β → Prop} {x : Operation α}
    {f : α → Operation β} (hx : Succeeds P gives past x)
    (hf : ∀ past a, gives past a → Follows P ends past (f a)) : Follows P ends past (x >>= f) := by
  refine Follows.bind hx (fun past a h => ?_) (fun past e h => ?_)
  · obtain ⟨a', ha, h⟩ := h
    obtain rfl := Except.ok.inj ha
    exact hf past a h
  · obtain ⟨a, ha, -⟩ := h
    cases ha

/-- An operation that succeeds adds to the exchanges that it had. -/
theorem Succeeds.extends {x : Operation α} (hx : Succeeds P gives past x) :
    Succeeds P (fun past' a => past <+: past' ∧ gives past' a) past x := by
  refine Procedure.Follows.mono (Procedure.Follows.extends hx) fun past' r h => ?_
  obtain ⟨hle, a, rfl, h⟩ := h
  exact ⟨a, rfl, hle, h⟩

theorem succeeds_pure {a : α} (h : gives past a) : Succeeds P gives past (pure a) :=
  follows_pure ⟨a, rfl, h⟩

theorem succeeds_lift {p : Procedure α} (h : p.Follows P gives past) :
    Succeeds P gives past (liftM p) :=
  Procedure.Follows.bind h fun _ a h => ⟨a, rfl, h⟩

theorem succeeds_call {q : Ask} {gives : List Exchange → q.Answer → Prop} (hmay : P.may past q)
    (h : ∀ x, P.expect q x → gives (past ++ [⟨q, x⟩]) x) :
    Succeeds P gives past (liftM (Procedure.call q)) :=
  succeeds_lift (Procedure.follows_call hmay h)

theorem succeeds_checked {fault : CallFault → TokenError} {p : Procedure (Except CallFault α)}
    (h : p.Follows P (fun past r => ∃ a, r = .ok a ∧ gives past a) past) :
    Succeeds P gives past (checked fault p) :=
  Procedure.Follows.bind h fun _ _ ⟨a, ha, h⟩ => ⟨a, by rw [ha]; rfl, h⟩

theorem succeeds_representable {t : Option Instant} {gives : List Exchange → Instant → Prop}
    (habort : t = none → P.mayAbort past) (h : ∀ e, t = some e → gives past e) :
    Succeeds P gives past (representable t) := by
  cases t with
  | none => exact habort rfl
  | some e => exact ⟨e, rfl, h e rfl⟩

end Operation

end AccessControl
