import AccessControl.Proofs.Token.Serial

/-!
# Operations that stop at the first failure

An operation that stops at the first failure of a collaborator succeeds only where nothing failed:
what it gives over disturbed lines, it gives over the same lines with all failures taken off
(`run_reliable`), and if no collaborator is told to lie this is what the backend itself gives.
Verification is such an operation.
-/

namespace AccessControl

/-- The line, with its plan taken off if that makes calls fail. A lie is no failure. -/
def Line.reliable (l : Line) : Line := { l with plan := l.plan.filter (·.fault = .lie) }

theorem Plan.fault_next (p : Plan) :
    p.next.2.fault = p.fault ∧ ∀ f, p.next.1 = some f → f = p.fault := by
  obtain ⟨fault, skip, count⟩ := p
  cases skip with
  | succ n => exact ⟨rfl, fun f h => by cases h⟩
  | zero =>
    rcases count with _ | _ | n
    · exact ⟨rfl, fun f h => (Option.some.inj h).symm⟩
    · exact ⟨rfl, fun f h => by cases h⟩
    · exact ⟨rfl, fun f h => (Option.some.inj h).symm⟩

theorem Line.call_reliable {l : Line} (h : ∀ f, l.call.1 = some f → f = .lie) :
    l.reliable.call = (l.call.1, l.call.2.reliable) := by
  obtain ⟨calls, plan⟩ := l
  cases plan with
  | none => rfl
  | some p =>
    obtain ⟨hkept, hnext⟩ := p.fault_next
    by_cases hf : p.fault = .lie
    · simp [reliable, call, Option.filter, hf, hkept]
    · -- The plan goes, and so it was not the turn of its fault.
      have hnone : p.next.1 = none := by
        rw [Option.eq_none_iff_forall_ne_some]
        intro f hn
        exact hf (hnext f hn ▸ h f hn)
      simp [reliable, call, Option.filter, hf, hkept, hnone]

namespace Lines

def reliable (ls : Lines) : Lines := fun t => (ls t).map Line.reliable

theorem reliable_set (ls : Lines) (t : Target) (l : Line) :
    (ls.set t l).reliable = ls.reliable.set t l.reliable := by
  funext t'
  unfold reliable set
  split <;> rfl

/-- A call that does not fail goes over reliable lines as it went. -/
theorem call_reliable {ls : Lines} {t : Target} (h : ∀ f, (ls.call t).1 = some f → f = .lie) :
    ls.reliable.call t = ((ls.call t).1, (ls.call t).2.reliable) := by
  unfold call at h ⊢
  cases hl : ls t with
  | none => simp [reliable, hl]
  | some l =>
    rw [hl] at h
    have hr : ls.reliable t = some l.reliable := by simp [reliable, hl]
    simp only [hr, Line.call_reliable h, reliable_set]

/-- No collaborator is told to answer untruthfully. -/
def Truthful (ls : Lines) : Prop :=
  ∀ t l p, ls t = some l → l.plan = some p → p.fault ≠ .lie

def Undisturbed (ls : Lines) : Prop := ∀ t l, ls t = some l → l.plan = none

theorem Truthful.undisturbed {ls : Lines} (h : ls.Truthful) : ls.reliable.Undisturbed := by
  intro t l hl
  obtain ⟨l', hl', rfl⟩ := Option.map_eq_some_iff.mp hl
  refine Option.filter_eq_none_iff.mpr fun p hp => ?_
  simpa using h t l' p hl' hp

theorem Undisturbed.call {ls : Lines} (h : ls.Undisturbed) (t : Target) :
    (ls.call t).1 = none ∧ (ls.call t).2.Undisturbed := by
  cases hl : ls t with
  | none => simpa [Lines.call, hl] using h
  | some l =>
    have hp := h t l hl
    simp only [Lines.call, hl, Line.call, hp]
    refine ⟨trivial, fun t' l' hl' => ?_⟩
    unfold Lines.set at hl'
    split at hl'
    · obtain rfl := Option.some.inj hl'
      rfl
    · exact h t' l' hl'

end Lines

/-- A question is answered as over reliable lines, or its failure is reported, or it is never
answered. -/
theorem Backend.respond_cases (ended ended' : Option Cancelled) (q : Ask) (bound : Bool)
    (b : Backend) (ls : Lines) :
    (∃ x b' ls', Backend.respond ended q bound (b, ls) = (some x, (b', ls')) ∧
      Backend.respond ended' q bound (b, ls.reliable) = (some x, (b', ls'.reliable))) ∨
    (∃ f x s, q.failure? f = some x ∧ Backend.respond ended q bound (b, ls) = (some x, s)) ∨
    ∃ s, Backend.respond ended q bound (b, ls) = (none, s) := by
  unfold Backend.respond
  simp only
  have hfailed : ∀ (f : CallFault) (s : Backend × Lines),
      (∃ g x s', q.failure? g = some x ∧ (q.failure? f, s) = (some x, s')) ∨
        ∃ s', (q.failure? f, s) = (none, s') := by
    intro f s
    cases hq : q.failure? f with
    | none => exact .inr ⟨s, rfl⟩
    | some x => exact .inl ⟨f, x, s, hq, rfl⟩
  cases q.target? with
  | none => exact .inl ⟨_, _, _, rfl, rfl⟩
  | some t =>
    simp only
    cases hfault : (ls.call t).1 with
    | none =>
      rw [Lines.call_reliable (by simp [hfault]), hfault]
      exact .inl ⟨_, _, _, rfl, rfl⟩
    | some fault =>
      cases fault with
      | offline => exact .inr (hfailed (.unavailable t.offlineText) (b, (ls.call t).2))
      | givenUp c => exact .inr (hfailed (.unavailable t.offlineText) (b, (ls.call t).2))
      | hang =>
        refine .inr ?_
        cases (if bound then ended else none) with
        | none => exact .inr ⟨_, rfl⟩
        | some c => exact hfailed (.cancelled c) (b, (ls.call t).2)
      | lie =>
        rw [Lines.call_reliable (by simp [hfault]), hfault]
        refine .inl ?_
        cases hlie : q.lie? with
        | none => exact ⟨_, _, _, rfl, rfl⟩
        | some x => exact ⟨_, _, _, rfl, rfl⟩

theorem Backend.respond_clock (ended : Option Cancelled) (q : Ask) (bound : Bool) (b : Backend)
    (ls : Lines) : (Backend.respond ended q bound (b, ls)).2.1.clock = b.clock := by
  rcases (Backend.respond_effect ended q bound b ls).1 with h | h <;> rw [h]
  exact answer_clock b q

theorem Backend.respond_undisturbed {ls : Lines} (h : ls.Undisturbed) (ended : Option Cancelled)
    (q : Ask) (bound : Bool) (b : Backend) :
    ∃ ls', ls'.Undisturbed ∧
      Backend.respond ended q bound (b, ls) = (some (b.answer q).1, ((b.answer q).2, ls')) := by
  unfold Backend.respond
  cases q.target? with
  | none => exact ⟨ls, h, rfl⟩
  | some t =>
    obtain ⟨hfault, hrest⟩ := h.call t
    exact ⟨_, hrest, by simp only [hfault]⟩

namespace Procedure

variable {α : Type}

/-- Every failure that is reported ends the procedure with an error. -/
def FailsFast : Procedure (Except TokenError α) → Prop
  | done _ => True
  | abort => True
  | ask q _ next =>
    (∀ f x, q.failure? f = some x → ∃ e, next x = done (.error e)) ∧ ∀ x, FailsFast (next x)

/-- What a procedure that stops at the first failure gives over disturbed lines, it gives over
reliable ones. -/
theorem run_reliable {p : Procedure (Except TokenError α)} (hp : p.FailsFast)
    {ended : Option Cancelled} (ended' : Option Cancelled) {b b' : Backend} {ls ls' : Lines} {a : α}
    (h : p.run (Backend.respond ended) (b, ls) = (.done (.ok a), (b', ls'))) :
    p.run (Backend.respond ended') (b, ls.reliable) = (.done (.ok a), (b', ls'.reliable)) := by
  induction p generalizing b ls with
  | done r =>
    obtain ⟨rfl, rfl, rfl⟩ : r = .ok a ∧ b = b' ∧ ls = ls' := by simpa [Procedure.run] using h
    rfl
  | abort => cases h
  | ask q bound next ih =>
    rw [Procedure.run] at h ⊢
    rcases Backend.respond_cases ended ended' q bound b ls with
      ⟨x, b'', ls'', he, he'⟩ | ⟨f, x, s, hx, he⟩ | ⟨s, he⟩ <;> rw [he] at h
    · rw [he']
      exact ih _ (hp.2 _) h
    · obtain ⟨e, hnext⟩ := hp.1 f x hx
      simp only [hnext] at h
      cases h
    · cases h

theorem run_clock (p : Procedure α) (ended : Option Cancelled) (b : Backend) (ls : Lines) :
    (p.run (Backend.respond ended) (b, ls)).2.1.clock = b.clock := by
  induction p generalizing b ls with
  | done a => rfl
  | abort => rfl
  | ask q bound next ih =>
    have hclock := Backend.respond_clock ended q bound b ls
    rw [Procedure.run]
    generalize Backend.respond ended q bound (b, ls) = r at hclock ⊢
    obtain ⟨_ | x, b', ls'⟩ := r
    · exact hclock
    · exact (ih x b' ls').trans hclock

theorem run_undisturbed (p : Procedure α) (ended : Option Cancelled) {b : Backend} {ls : Lines}
    (hls : ls.Undisturbed) :
    ∃ ls', p.run (Backend.respond ended) (b, ls) = ((b.run p).1, ((b.run p).2, ls')) := by
  induction p generalizing b ls with
  | done a => exact ⟨ls, rfl⟩
  | abort => exact ⟨ls, rfl⟩
  | ask q bound next ih =>
    obtain ⟨ls', hls', he⟩ := Backend.respond_undisturbed hls ended q bound b
    rw [Procedure.run, he]
    exact ih _ hls'

end Procedure

namespace Operation

variable {α β : Type}

def FailsFast (x : Operation α) : Prop := x.run.FailsFast

theorem FailsFast.bind {x : Operation α} {f : α → Operation β} (hx : FailsFast x)
    (hf : ∀ a, FailsFast (f a)) : FailsFast (x >>= f) := by
  show Procedure.FailsFast (Procedure.bind x.run _)
  unfold FailsFast at hx
  generalize x.run = p at hx ⊢
  induction p with
  | done r =>
    cases r with
    | ok a => exact hf a
    | error e => trivial
  | abort => trivial
  | ask q bound next ih =>
    refine ⟨fun c y hy => ?_, fun y => ih y (hx.2 y)⟩
    obtain ⟨e, hnext⟩ := hx.1 c y hy
    exact ⟨e, congrArg (Procedure.bind · _) hnext⟩

theorem failsFast_pure (a : α) : FailsFast (pure a) := trivial

theorem failsFast_now : FailsFast (liftM (Procedure.call .now) : Operation Instant) :=
  ⟨fun _ _ h => (nomatch h), fun _ => trivial⟩

theorem failsFast_findRecord (fault : CallFault → TokenError) (id : TokenId) :
    FailsFast (checked fault (Procedure.boundCall (.findRecord id))) := by
  refine ⟨fun f x hx => ?_, fun _ => trivial⟩
  obtain rfl := Option.some.inj hx
  exact ⟨fault f, rfl⟩

theorem failsFast_findRevocation (fault : CallFault → TokenError) (id : TokenId) :
    FailsFast (checked fault (Procedure.boundCall (.findRevocation id))) := by
  refine ⟨fun f x hx => ?_, fun _ => trivial⟩
  obtain rfl := Option.some.inj hx
  exact ⟨fault f, rfl⟩

end Operation

namespace TokenManager

open Operation

theorem failsFast_verify (m : TokenManager) (value : String) : FailsFast (m.verify value) := by
  have hlookUp : FailsFast (m.lookUp value) := by
    unfold lookUp
    cases m.backing with
    | signed k => exact failsFast_pure _
    | stored =>
      simp only
      split
      · refine (failsFast_findRecord ..).bind fun r => ?_
        cases r <;> exact failsFast_pure _
      · exact failsFast_pure _
  unfold verify
  refine hlookUp.bind fun found => ?_
  cases found with
  | error f => exact failsFast_pure _
  | ok found =>
    obtain ⟨v, marked⟩ := found
    refine failsFast_now.bind fun now => ?_
    split
    · exact failsFast_pure _
    · have hrevoked : FailsFast (isRevoked v.details.id marked) := by
        unfold isRevoked
        split
        · exact failsFast_pure _
        · exact failsFast_findRevocation ..
      refine hrevoked.bind fun revoked => ?_
      split
      · exact failsFast_pure _
      · split <;> exact failsFast_pure _

end TokenManager

end AccessControl
