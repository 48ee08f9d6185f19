import AccessControl.Proofs.Token.Protocol
import AccessControl.Token.Backend
import Mathlib.Logic.Function.Basic
import Mathlib.Logic.Relation

/-!
# Calls that run side by side

A pool is a backend with any number of calls on it. One step lets one call ask its next question, or
moves the clock, so a statement about all pools that are reached is one about all orders in which the
steps of the calls can be taken. Each call keeps to a protocol on its own, and `Pool.Turn.follows`
puts the calls together.
-/

namespace AccessControl

/-- The backend gives the true answer. -/
def Backend.Answers (b : Backend) (q : Ask) (_bound : Bool) (x : q.Answer) (b' : Backend) : Prop :=
  x = (b.answer q).1 ∧ b' = (b.answer q).2

/-- A backend with calls on it: what each of them has asked, and what is left of it. -/
structure Pool (ι α : Type) where
  backend : Backend
  past : ι → List Exchange
  rest : ι → Procedure α

namespace Pool

variable {ι α : Type} [DecidableEq ι]

/-- Calls that have not asked anything yet. -/
def start (b : Backend) (calls : ι → Procedure α) : Pool ι α := ⟨b, fun _ => [], calls⟩

/-- The exchanges of the calls after one more of the call `i`. -/
def after (past : ι → List Exchange) (i : ι) (x : Exchange) : ι → List Exchange :=
  Function.update past i (past i ++ [x])

theorem trace_after {past : ι → List Exchange} {i j : ι} {x : Exchange} {p : Exchange → Prop} :
    Trace p (after past i x j) ↔ Trace p (past j) ∨ (j = i ∧ p x) := by
  unfold after
  by_cases h : j = i
  · subst h
    simp
  · simp [h]

theorem getLast?_after {past : ι → List Exchange} {i j : ι} {x : Exchange} :
    (after past i x j).getLast? = if j = i then some x else (past j).getLast? := by
  unfold after
  by_cases h : j = i
  · subst h
    simp
  · simp [h]

/-- The pool after the question `q` of the call `i` was answered. -/
def answered (pool : Pool ι α) (i : ι) (q : Ask) (next : q.Answer → Procedure α) : Pool ι α where
  backend := (pool.backend.answer q).2
  past := after pool.past i ⟨q, (pool.backend.answer q).1⟩
  rest := Function.update pool.rest i (next (pool.backend.answer q).1)

/-- One call is given the answer to its question, or the clock is moved. -/
inductive Step (moves : Instant → Prop) : Pool ι α → Pool ι α → Prop
  | answer {pool : Pool ι α} {i : ι} {q : Ask} {bound : Bool} {next : q.Answer → Procedure α}
    (h : pool.rest i = .ask q bound next) : Step moves pool (pool.answered i q next)
  | clock {pool : Pool ι α} {t : Instant} (h : moves t) :
    Step moves pool { pool with backend := { pool.backend with clock := t } }

/-- What any number of steps lead to. -/
abbrev Reaches (moves : Instant → Prop) : Pool ι α → Pool ι α → Prop :=
  Relation.ReflTransGen (Step moves)

/-- One call takes its next step, if it has one. -/
def next (pool : Pool ι α) (i : ι) : Pool ι α :=
  match pool.rest i with
  | .ask q _ rest => pool.answered i q rest
  | _ => pool

/-- The calls take their steps in the given order. -/
def play (pool : Pool ι α) (turns : List ι) : Pool ι α := turns.foldl next pool

theorem reaches_play (moves : Instant → Prop) (pool : Pool ι α) (turns : List ι) :
    Reaches moves pool (pool.play turns) := by
  induction turns generalizing pool with
  | nil => exact .refl
  | cons i turns ih =>
    refine Relation.ReflTransGen.trans ?_ (ih (pool.next i))
    unfold next
    split
    next h => exact .single (.answer h)
    · exact .refl

/-- One call is given an answer, or the clock is moved. Which answers there can be, and to which times
the clock can go, is left open. -/
inductive Turn (answers : (b : Backend) → (q : Ask) → Bool → q.Answer → Backend → Prop)
    (ticks : Instant → Instant → Prop) : Pool ι α → Pool ι α → Prop
  | answer {pool : Pool ι α} {i : ι} {q : Ask} {bound : Bool} {next : q.Answer → Procedure α}
    {x : q.Answer} {b : Backend} (h : pool.rest i = .ask q bound next)
    (hx : answers pool.backend q bound x b) :
    Turn answers ticks pool ⟨b, after pool.past i ⟨q, x⟩, Function.update pool.rest i (next x)⟩
  | clock {pool : Pool ι α} {t : Instant} (h : ticks pool.backend.clock t) :
    Turn answers ticks pool { pool with backend := { pool.backend with clock := t } }

/-- An invariant that gives the calls the answers they expect, and is kept by the questions they may
ask, holds in all pools that are reached; and there all calls keep to their protocols. `bounded` may
be used of the backend after each step if it holds at the end. -/
theorem Turn.follows {answers : (b : Backend) → (q : Ask) → Bool → q.Answer → Backend → Prop}
    {ticks : Instant → Instant → Prop} {P : ι → Protocol}
    {I : Backend → (ι → List Exchange) → Prop} {ends : ι → List Exchange → α → Prop}
    {first last : Pool ι α} (h : Relation.ReflTransGen (Turn answers ticks) first last)
    (bounded : Backend → Prop)
    (hbounded : ∀ b b' q bound (x : q.Answer), answers b q bound x b' → bounded b' → bounded b)
    (hclocked : ∀ (b : Backend) t, bounded { b with clock := t } → bounded b)
    (hanswer : ∀ b b' past i q bound x, answers b q bound x b' → bounded b' → I b past →
      (P i).may (past i) q → (P i).expect q x ∧ I b' (after past i ⟨q, x⟩))
    (hclock : ∀ (b : Backend) past t, ticks b.clock t → I b past → I { b with clock := t } past)
    (hI : I first.backend first.past)
    (hcalls : ∀ i, (first.rest i).Follows (P i) (ends i) (first.past i))
    (hlast : bounded last.backend) :
    I last.backend last.past ∧ ∀ i, (last.rest i).Follows (P i) (ends i) (last.past i) := by
  induction h with
  | refl => exact ⟨hI, hcalls⟩
  | tail _ hstep ih =>
    cases hstep with
    | @answer i q bound next x b hi hx =>
      obtain ⟨hI, hcalls⟩ := ih (hbounded _ _ q bound x hx hlast)
      have hcall := hcalls i
      rw [hi] at hcall
      obtain ⟨hexpect, hI'⟩ := hanswer _ _ _ i q bound x hx hlast hI hcall.1
      refine ⟨hI', fun j => ?_⟩
      by_cases hj : j = i
      · subst hj
        simp only [after, Function.update_self]
        exact hcall.2 _ hexpect
      · simp only [after, Function.update_of_ne hj]
        exact hcalls j
    | @clock t hticks =>
      obtain ⟨hI, hcalls⟩ := ih (hclocked _ t hlast)
      exact ⟨hclock _ _ t hticks hI, hcalls⟩

/-- The same for calls that share a protocol, and are all answered truly. -/
theorem Reaches.follows {moves : Instant → Prop} {P : Protocol}
    {I : Backend → (ι → List Exchange) → Prop} {ends : ι → List Exchange → α → Prop}
    {first last : Pool ι α} (h : Reaches moves first last) (bounded : Backend → Prop)
    (hbounded : ∀ b q, bounded (b.answer q).2 → bounded b)
    (hclocked : ∀ (b : Backend) t, bounded { b with clock := t } → bounded b)
    (hanswer : ∀ b past i q, bounded (b.answer q).2 → I b past → P.may (past i) q →
      P.expect q (b.answer q).1 ∧ I (b.answer q).2 (after past i ⟨q, (b.answer q).1⟩))
    (hclock : ∀ (b : Backend) past t, moves t → I b past → I { b with clock := t } past)
    (hI : I first.backend first.past)
    (hcalls : ∀ i, (first.rest i).Follows P (ends i) (first.past i))
    (hlast : bounded last.backend) :
    I last.backend last.past ∧ ∀ i, (last.rest i).Follows P (ends i) (last.past i) := by
  have hturns : Relation.ReflTransGen
      (Turn Backend.Answers fun _ => moves) first last := by
    refine h.lift id fun pool pool' hstep => ?_
    cases hstep with
    | answer h => exact .answer h ⟨rfl, rfl⟩
    | clock h => exact .clock h
  refine Turn.follows hturns bounded ?_ hclocked ?_ hclock hI hcalls hlast
  · rintro b _ q bound _ ⟨rfl, rfl⟩ h
    exact hbounded b q h
  · rintro b _ past i q bound _ ⟨rfl, rfl⟩ h
    exact hanswer b past i q h

/-- All calls are answered truly, and the clock never goes backwards. -/
abbrev Onward : Pool ι α → Pool ι α → Prop :=
  Relation.ReflTransGen (Turn Backend.Answers (· ≤ ·))

theorem past_after (past : ι → List Exchange) (i j : ι) (x : Exchange) :
    past j <+: after past i x j := by
  unfold after
  by_cases h : j = i
  · subst h
    simp
  · simp [h]

theorem Onward.drawn_le {pool pool' : Pool ι α} (h : Onward pool pool') :
    pool.backend.drawn ≤ pool'.backend.drawn := by
  induction h with
  | refl => exact Nat.le_refl _
  | tail _ hstep ih =>
    cases hstep with
    | @answer i q _ _ _ _ _ hx =>
      obtain ⟨-, rfl⟩ := hx
      exact Nat.le_trans ih (Backend.drawn_le_answer _ q)
    | clock => exact ih

/-- A call may finish a part of its work before any other call takes a step. -/
theorem onward_alone {β : Type} {pool : Pool ι α} {i : ι} {x : Procedure β} {f : β → Procedure α}
    {a : β} {b : Backend} (hrest : pool.rest i = x.bind f) (h : pool.backend.run x = (.done a, b)) :
    ∃ past, Onward pool ⟨b, past, Function.update pool.rest i (f a)⟩ := by
  induction x generalizing pool with
  | done a' =>
    cases h
    refine ⟨pool.past, ?_⟩
    rw [← show pool.rest i = f a from hrest, Function.update_eq_self]
  | abort => cases h
  | ask q bound next ih =>
    obtain ⟨past, hpast⟩ := @ih _ (pool.answered i q fun y => (next y).bind f)
      (Function.update_self ..) h
    rw [answered, Function.update_idem] at hpast
    exact ⟨past, .head (.answer hrest ⟨rfl, rfl⟩) hpast⟩

theorem onward_done (past : ι → List Exchange) (rest : ι → Procedure α) (i : ι) {a : α}
    {b b' : Backend} (h : b.run (rest i) = (.done a, b')) :
    ∃ past', Onward ⟨b, past, rest⟩ ⟨b', past', Function.update rest i (.done a)⟩ :=
  @onward_alone _ _ _ _ ⟨b, past, rest⟩ i (rest i) .done a b' (Procedure.bind_done _).symm h

end Pool

end AccessControl
