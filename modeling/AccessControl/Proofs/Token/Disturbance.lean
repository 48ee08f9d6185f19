import AccessControl.Proofs.Token.Pool

/-!
# Calls side by side over disturbed lines

The steps of a pool when any call may be disturbed at any time: a question has its effect and its
answer, or it has none and its failure or a lie is answered (`Backend.Replies.cases`), or it is never
answered and its call stays where it is. The clock can be set to any time. What a single step keeps
holds in every pool that is reached (`Pool.Leads.follows`).
-/

namespace AccessControl

namespace Backend

/-- Over some lines and for some caller, the question is answered and leaves `b'` behind. -/
def Replies (b : Backend) (q : Ask) (bound : Bool) (x : q.Answer) (b' : Backend) : Prop :=
  ∃ ended ls ls', respond ended q bound (b, ls) = (some x, (b', ls'))

variable {b b' : Backend} {q : Ask} {bound : Bool} {x : q.Answer}

/-- A disturbed question is answered by a failure or a lie and has no effect. -/
theorem respond_cases_effect (ended : Option Cancelled) (q : Ask) (bound : Bool) (b : Backend)
    (ls : Lines) :
    ((respond ended q bound (b, ls)).1 = some (b.answer q).1 ∧
      (respond ended q bound (b, ls)).2.1 = (b.answer q).2) ∨
    ((respond ended q bound (b, ls)).2.1 = b ∧
      ∀ x, (respond ended q bound (b, ls)).1 = some x →
        (∃ f, q.failure? f = some x) ∨ q.lie? = some x) := by
  unfold respond
  simp only
  cases q.target? with
  | none => exact .inl ⟨rfl, rfl⟩
  | some t =>
    simp only
    cases (ls.call t).1 with
    | none => exact .inl ⟨rfl, rfl⟩
    | some fault =>
      cases fault with
      | offline => exact .inr ⟨rfl, fun x hx => .inl ⟨_, hx⟩⟩
      | givenUp c => exact .inr ⟨rfl, fun x hx => .inl ⟨_, hx⟩⟩
      | hang =>
        refine .inr ⟨rfl, fun x hx => .inl ?_⟩
        obtain ⟨c, -, hc⟩ := Option.bind_eq_some_iff.1 hx
        exact ⟨_, hc⟩
      | lie =>
        cases q.lie? with
        | none => exact .inl ⟨rfl, rfl⟩
        | some y => exact .inr ⟨rfl, fun x hx => .inr hx⟩

theorem Replies.cases (h : b.Replies q bound x b') :
    (x = (b.answer q).1 ∧ b' = (b.answer q).2) ∨
      (b' = b ∧ ((∃ f, q.failure? f = some x) ∨ q.lie? = some x)) := by
  obtain ⟨ended, ls, ls', h⟩ := h
  rcases respond_cases_effect ended q bound b ls with ⟨hx, hb⟩ | ⟨hb, hx⟩
  · rw [h] at hx hb
    exact .inl ⟨Option.some.inj hx, hb⟩
  · rw [h] at hx hb
    exact .inr ⟨hb, hx x rfl⟩

theorem Replies.supply_eq (h : b.Replies q bound x b') : b'.supply = b.supply := by
  rcases h.cases with ⟨-, rfl⟩ | ⟨rfl, -⟩
  · exact answer_supply b q
  · rfl

theorem Replies.drawn_le (h : b.Replies q bound x b') : b.drawn ≤ b'.drawn := by
  rcases h.cases with ⟨-, rfl⟩ | ⟨rfl, -⟩
  · exact drawn_le_answer b q
  · exact Nat.le_refl _

end Backend

namespace Pool

variable {ι α : Type} [DecidableEq ι] {who : ι → Prop} {pool pool' : Pool ι α}

/-- One of some calls is given an answer to its question, or the clock is set. -/
inductive Stirs (who : ι → Prop) : Pool ι α → Pool ι α → Prop
  | answer {pool : Pool ι α} {i : ι} {q : Ask} {bound : Bool} {next : q.Answer → Procedure α}
    {x : q.Answer} {b : Backend} (hi : who i) (h : pool.rest i = .ask q bound next)
    (hx : pool.backend.Replies q bound x b) :
    Stirs who pool ⟨b, after pool.past i ⟨q, x⟩, Function.update pool.rest i (next x)⟩
  | clock {pool : Pool ι α} (t : Instant) :
    Stirs who pool { pool with backend := { pool.backend with clock := t } }

/-- What any number of such steps lead to. -/
abbrev Leads (who : ι → Prop) : Pool ι α → Pool ι α → Prop := Relation.ReflTransGen (Stirs who)

theorem Leads.mono {who' : ι → Prop} (h : Leads who pool pool') (hwho : ∀ i, who i → who' i) :
    Leads who' pool pool' := by
  induction h with
  | refl => exact .refl
  | tail _ hstep ih =>
    refine ih.tail ?_
    cases hstep with
    | answer hi hask hx => exact .answer (hwho _ hi) hask hx
    | clock time => exact .clock time

theorem Leads.supply_eq (h : Leads who pool pool') :
    pool'.backend.supply = pool.backend.supply := by
  induction h with
  | refl => rfl
  | tail _ hstep ih =>
    cases hstep with
    | answer _ _ hx => exact hx.supply_eq.trans ih
    | clock => exact ih

theorem Leads.drawn_le (h : Leads who pool pool') : pool.backend.drawn ≤ pool'.backend.drawn := by
  induction h with
  | refl => exact Nat.le_refl _
  | tail _ hstep ih =>
    cases hstep with
    | answer _ _ hx => exact Nat.le_trans ih hx.drawn_le
    | clock => exact ih

omit [DecidableEq ι] in
theorem ne_of_asks {i j : ι} {a : α} {q : Ask} {bound : Bool} {next : q.Answer → Procedure α}
    (hdone : pool.rest i = .done a) (hask : pool.rest j = .ask q bound next) : i ≠ j := by
  rintro rfl
  rw [hdone] at hask
  cases hask

/-- A call that has returned takes no more steps. -/
theorem Leads.done {i : ι} {a : α} (h : Leads who pool pool') (hdone : pool.rest i = .done a) :
    pool'.rest i = .done a := by
  induction h with
  | refl => exact hdone
  | tail _ hstep ih =>
    cases hstep with
    | answer _ hask hx => exact (Function.update_of_ne (ne_of_asks ih hask) ..).trans ih
    | clock => exact ih

/-- A call may take all its steps before any other does, over the same lines. -/
theorem leads_alone {i : ι} (hi : who i) {ended : Option Cancelled} {ls ls' : Lines} {a : α}
    {b : Backend}
    (h : (pool.rest i).run (Backend.respond ended) (pool.backend, ls) = (.done a, (b, ls'))) :
    ∃ past, Leads who pool ⟨b, past, Function.update pool.rest i (.done a)⟩ := by
  generalize hrest : pool.rest i = rest at h
  induction rest generalizing pool ls with
  | done a' =>
    cases h
    refine ⟨pool.past, ?_⟩
    rw [← hrest, Function.update_eq_self]
  | abort => cases h
  | ask q bound next ih =>
    rw [Procedure.run] at h
    split at h
    · next x s hx =>
      obtain ⟨b', ls''⟩ := s
      have hstep : Stirs who pool ⟨b', after pool.past i ⟨q, x⟩,
          Function.update pool.rest i (next x)⟩ := .answer hi hrest ⟨ended, ls, ls'', hx⟩
      obtain ⟨past, hpast⟩ := @ih x ⟨b', after pool.past i ⟨q, x⟩,
        Function.update pool.rest i (next x)⟩ ls'' (Function.update_self ..) h
      rw [Function.update_idem] at hpast
      exact ⟨past, .head hstep hpast⟩
    · cases h

/-- An invariant that gives the calls the answers they expect, and is kept by the questions they may
ask, holds in all pools that are reached; and there all calls keep to their protocols. `bounded` may
be used of the backend after each step if it holds at the end. -/
theorem Leads.follows {P : ι → Protocol} {I : Backend → (ι → List Exchange) → Prop}
    {ends : List Exchange → α → Prop} (h : Leads who pool pool') (bounded : Backend → Prop)
    (hbounded : ∀ b b' q bound (x : q.Answer), b.Replies q bound x b' → bounded b' → bounded b)
    (hclocked : ∀ (b : Backend) t, bounded { b with clock := t } → bounded b)
    (hanswer : ∀ b b' past i q bound x, b.Replies q bound x b' → bounded b' → I b past →
      (P i).may (past i) q → (P i).expect q x ∧ I b' (after past i ⟨q, x⟩))
    (hclock : ∀ (b : Backend) past t, I b past → I { b with clock := t } past)
    (hI : I pool.backend pool.past)
    (hcalls : ∀ i, (pool.rest i).Follows (P i) ends (pool.past i))
    (hlast : bounded pool'.backend) :
    I pool'.backend pool'.past ∧ ∀ i, (pool'.rest i).Follows (P i) ends (pool'.past i) := by
  have hturns : Relation.ReflTransGen (Turn Backend.Replies fun _ _ => True) pool pool' := by
    refine h.lift id fun pool pool' hstep => ?_
    cases hstep with
    | answer _ h hx => exact .answer h hx
    | clock t => exact .clock trivial
  exact Turn.follows hturns bounded hbounded hclocked hanswer (fun b past t _ => hclock b past t) hI
    hcalls hlast

end Pool

end AccessControl
