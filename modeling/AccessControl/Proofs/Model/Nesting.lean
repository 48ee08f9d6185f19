import AccessControl.Model
import Mathlib.Data.List.Induction

/-!
# Models nested in one another

A hybrid model narrows what its inner model allows and widens what it denies, and the inner model may
be hybrid again. What one level makes of a decision is stated for each way it can go
(`allowed_refine`, `refine_broken`, `refine_untouched`). A whole tree is a plain model with levels
around it: an error passes them all (`error_around`), and a request is allowed iff there is a place
where it is opened, by the core or by an exemption, and every constraint further out holds
(`allows_around`). Of a request out of scope no model is asked (`decide_out_of_scope`).
-/

namespace AccessControl

namespace Exemption

variable {q : Request} {now : Instant}

/-- The action is one of the exempt ones, and the subject owns the resource or the hour is in the
window. -/
def Permits (q : Request) (now : Instant) : Exemption → Prop
  | owner actions field =>
    q.action ∈ actions ∧ q.resource.attributes.get? field = some (.str q.identity.subject.id.text)
  | hours actions start stop => q.action ∈ actions ∧ Condition.hourWithin now.hour start stop

theorem isSome_permits? (x : Exemption) : (x.permits? q now).isSome ↔ x.Permits q now := by
  cases x with
  | owner actions field =>
    have hstr : ∀ o : Option Json, o.bind Json.str? = some q.identity.subject.id.text ↔
        o = some (.str q.identity.subject.id.text) := by
      rintro (_ | j)
      · simp
      · cases j <;> simp [Json.str?]
    simp only [permits?, Permits]
    split
    · next h => simpa [hstr] using h
    · next h => simpa [hstr] using h
  | hours actions start stop =>
    simp only [permits?, Permits]
    split
    · next h => simpa using h
    · next h => simpa using h

/-- Some exemption permits the request. -/
def AnyPermits (exemptions : List Exemption) (q : Request) (now : Instant) : Prop :=
  ∃ x ∈ exemptions, x.Permits q now

theorem isSome_findSome?_permits? {exemptions : List Exemption} :
    (exemptions.findSome? (·.permits? q now)).isSome ↔ AnyPermits exemptions q now := by
  simp only [List.findSome?_isSome_iff, isSome_permits?, AnyPermits]

end Exemption

namespace Rule

variable {q : Request} {now : Instant} {constraints : List Rule} {c : Rule}

/-- Each constraint that applies to the request holds. -/
def Satisfied (constraints : List Rule) (q : Request) (now : Instant) : Prop :=
  ∀ c ∈ constraints, c.appliesTo q → c.holds q now

/-- The constraint is the first that applies and does not hold. -/
def FirstBroken (constraints : List Rule) (q : Request) (now : Instant) (c : Rule) : Prop :=
  ∃ before after, constraints = before ++ c :: after ∧ Satisfied before q now ∧ c.appliesTo q ∧
    ¬c.holds q now

theorem broken?_eq_none : Model.broken? constraints q now = none ↔ Satisfied constraints q now := by
  simp [Model.broken?, Satisfied]

theorem broken?_eq_some :
    Model.broken? constraints q now = some c ↔ FirstBroken constraints q now c := by
  have hunbroken : ∀ l : List Rule,
      (∀ a ∈ l, (!(a.appliesTo q && !a.holds q now)) = true) ↔ Satisfied l q now := by
    intro l
    refine forall₂_congr fun a _ => ?_
    cases a.appliesTo q <;> simp
  rw [Model.broken?, List.find?_eq_some_iff_append]
  simp only [hunbroken]
  simp only [Bool.and_eq_true, Bool.not_eq_true']
  constructor
  · rintro ⟨⟨happlies, hbroken⟩, before, after, rfl, hbefore⟩
    exact ⟨before, after, rfl, hbefore, happlies, by simp [hbroken]⟩
  · rintro ⟨before, after, rfl, hbefore, happlies, hbroken⟩
    exact ⟨⟨happlies, by simpa using hbroken⟩, before, after, rfl, hbefore⟩

theorem not_satisfied_iff : ¬Satisfied constraints q now ↔ ∃ c, FirstBroken constraints q now c := by
  rw [← broken?_eq_none, ← ne_eq, Option.ne_none_iff_exists']
  exact exists_congr fun _ => broken?_eq_some

end Rule

namespace Model

open Exemption (AnyPermits)
open Rule (Satisfied FirstBroken)

variable {rights : Rights} {q : Request} {now : Instant}

/-! ### One level -/

section Level

variable {constraints : List Rule} {exemptions : List Exemption} {base : Decision}

/-- Constraints can only narrow and exemptions can only widen. -/
theorem allowed_refine : (refine constraints exemptions q now base).allowed ↔
    base.allowed ∧ Satisfied constraints q now ∨
      base.allowed = false ∧ AnyPermits exemptions q now := by
  rw [refine, ← Rule.broken?_eq_none, ← Exemption.isSome_findSome?_permits?]
  by_cases hallowed : base.allowed
  · cases hbroken : broken? constraints q now <;> simp [hallowed]
  · cases hfound : exemptions.findSome? (·.permits? q now) <;> simp [hallowed]

/-- What breaks a constraint is denied, whoever is exempt. -/
theorem refine_broken {c : Rule} (hallowed : base.allowed) (hc : FirstBroken constraints q now c) :
    refine constraints exemptions q now base = .deny "hybrid" .conditionFailed
      (base.model ++ " allowed but constraint '" ++ c.name ++ "' does not hold") := by
  rw [refine, if_pos hallowed, Rule.broken?_eq_some.2 hc]

/-- A denial stays as it is where nobody is exempt. -/
theorem refine_untouched (hdenied : base.allowed = false) (hnone : ¬AnyPermits exemptions q now) :
    refine constraints exemptions q now base = base := by
  have hfound : exemptions.findSome? (·.permits? q now) = none := by
    rw [← Exemption.isSome_findSome?_permits?] at hnone
    simpa using hnone
  rw [refine, if_neg (by simp [hdenied]), hfound]

end Level

/-- The model answers, and allows the request. -/
def Allows (m : Model) (rights : Rights) (q : Request) (now : Instant) : Prop :=
  ∃ d, m.evaluate rights q now = .ok d ∧ d.allowed

/-- The model answers, and denies the request. -/
def Denies (m : Model) (rights : Rights) (q : Request) (now : Instant) : Prop :=
  ∃ d, m.evaluate rights q now = .ok d ∧ d.allowed = false

section Hybrid

variable {inner : Model} {constraints : List Rule} {exemptions : List Exemption}

theorem evaluate_hybrid_ok {b : Decision} (h : inner.evaluate rights q now = .ok b) :
    (hybrid inner constraints exemptions).evaluate rights q now =
      .ok (refine constraints exemptions q now b) := by
  rw [evaluate, h]
  rfl

theorem evaluate_hybrid_error {e : DecisionError} :
    (hybrid inner constraints exemptions).evaluate rights q now = .error e ↔
      inner.evaluate rights q now = .error e := by
  rw [evaluate]
  cases inner.evaluate rights q now <;> simp [Except.map]

theorem allows_hybrid : (hybrid inner constraints exemptions).Allows rights q now ↔
    inner.Allows rights q now ∧ Satisfied constraints q now ∨
      inner.Denies rights q now ∧ AnyPermits exemptions q now := by
  unfold Allows Denies
  cases hinner : inner.evaluate rights q now with
  | error e => simp [evaluate_hybrid_error.2 hinner]
  | ok b => simp [evaluate_hybrid_ok hinner, allowed_refine]

end Hybrid

/-! ### A tree of levels -/

/-- What a hybrid model adds to its inner model. -/
structure Level where
  constraints : List Rule
  exemptions : List Exemption

/-- A model with levels around it, the innermost one first. -/
def around (base : Model) (levels : List Level) : Model :=
  levels.foldl (fun m l => hybrid m l.constraints l.exemptions) base

/-- The model inside all levels. -/
def core : Model → Model
  | hybrid inner _ _ => inner.core
  | m => m

def levels : Model → List Level
  | hybrid inner constraints exemptions => inner.levels ++ [⟨constraints, exemptions⟩]
  | _ => []

theorem around_concat (base : Model) (ls : List Level) (l : Level) :
    base.around (ls ++ [l]) = hybrid (base.around ls) l.constraints l.exemptions := by
  simp [around]

theorem around_levels (m : Model) : m.core.around m.levels = m := by
  induction m with
  | hybrid inner constraints exemptions ih => rw [levels, core, around_concat, ih]
  | _ => rfl

/-- Nothing makes a decision of an error. -/
theorem error_around (base : Model) (ls : List Level) {e : DecisionError} :
    (base.around ls).evaluate rights q now = .error e ↔ base.evaluate rights q now = .error e := by
  induction ls using List.reverseRecOn with
  | nil => rfl
  | append_singleton ls l ih => rw [around_concat, evaluate_hybrid_error, ih]

/-- The request is opened by the outermost of the levels, which exempts what is denied inside, or
by the model itself where there is no level. -/
def Opened (base : Model) (ls : List Level) (rights : Rights) (q : Request) (now : Instant) : Prop :=
  ls = [] ∧ base.Allows rights q now ∨
    ∃ inside l, ls = inside ++ [l] ∧ (base.around inside).Denies rights q now ∧
      AnyPermits l.exemptions q now

/-- A tree allows what is opened somewhere and satisfies everything further out. -/
theorem allows_around (base : Model) (ls : List Level) :
    (base.around ls).Allows rights q now ↔ ∃ inside outside, ls = inside ++ outside ∧
      base.Opened inside rights q now ∧ ∀ l ∈ outside, Satisfied l.constraints q now := by
  induction ls using List.reverseRecOn with
  | nil =>
    constructor
    · intro h
      exact ⟨[], [], rfl, .inl ⟨rfl, h⟩, by simp⟩
    · rintro ⟨inside, outside, hnil, hopened, -⟩
      obtain ⟨rfl, rfl⟩ := List.append_eq_nil_iff.1 hnil.symm
      rcases hopened with ⟨-, h⟩ | ⟨inside, l, h, -⟩
      · exact h
      · simp at h
  | append_singleton ls l ih =>
    rw [around_concat, allows_hybrid, ih]
    constructor
    · rintro (⟨⟨inside, outside, rfl, hopened, hsat⟩, hl⟩ | ⟨hdenies, hpermits⟩)
      · refine ⟨inside, outside ++ [l], by simp, hopened, fun l' hl' => ?_⟩
        rcases List.mem_append.1 hl' with hl' | hl'
        · exact hsat l' hl'
        · rwa [List.mem_singleton.1 hl']
      · exact ⟨ls ++ [l], [], by simp, .inr ⟨ls, l, rfl, hdenies, hpermits⟩, by simp⟩
    · rintro ⟨inside, outside, hls, hopened, hsat⟩
      rcases List.eq_nil_or_concat outside with rfl | ⟨outside, l', rfl⟩
      · -- opened by the outermost level
        rw [List.append_nil] at hls
        subst hls
        rcases hopened with ⟨h, -⟩ | ⟨inside, l', h, hdenies, hpermits⟩
        · simp at h
        · obtain ⟨rfl, hl⟩ := List.append_inj' h rfl
          obtain rfl := List.singleton_inj.1 hl
          exact .inr ⟨hdenies, hpermits⟩
      · have hlast : ls ++ [l] = inside ++ outside ++ [l'] := by simpa using hls
        obtain ⟨rfl, hl⟩ := List.append_inj' hlast rfl
        obtain rfl := List.singleton_inj.1 hl
        exact .inl ⟨⟨inside, outside, rfl, hopened, fun l hl => hsat l (by simp [hl])⟩,
          hsat _ (by simp)⟩

/-! ### Scope -/

theorem decide_in_scope {m : Model} (h : q.InScope) :
    m.decide rights q now = m.evaluate rights q now := by
  rw [decide, Request.outOfScope?_eq_none.2 h]

/-- Out of scope the answer is a denial that depends on the request and the name of the model
only. -/
theorem decide_out_of_scope (h : ¬q.InScope) (name : String) : ∃ d : Decision, d.allowed = false ∧
    ∀ m : Model, m.name = name → ∀ rights now, m.decide rights q now = .ok d := by
  have hne : q.outOfScope? name ≠ none := fun hnone => h (Request.outOfScope?_eq_none.1 hnone)
  obtain ⟨d, hd⟩ := Option.ne_none_iff_exists'.1 hne
  refine ⟨d, Request.allowed_of_outOfScope? hd, ?_⟩
  rintro m rfl rights now
  rw [decide, hd]

/-- A hybrid model, around any tree, allows what its inner model allows within the constraints and
what its inner model denies to the exempt. A broken constraint is named by the denial, and nobody is
exempt from it on this level; a denial that no exemption touches, and an error, stay what they are.
Through all levels of the tree, an error is one of the core, and a request is allowed iff it is
opened somewhere and everything further out is satisfied. None of this is asked about a request out
of scope. -/
theorem nested_decisions (inner : Model) (constraints : List Rule) (exemptions : List Exemption)
    (rights : Rights) (q : Request) (now : Instant) :
    let m := hybrid inner constraints exemptions
    (m.Allows rights q now ↔
      inner.Allows rights q now ∧ Satisfied constraints q now ∨
        inner.Denies rights q now ∧ AnyPermits exemptions q now) ∧
    (∀ b, inner.evaluate rights q now = .ok b → b.allowed → ¬Satisfied constraints q now →
      ∃ c, FirstBroken constraints q now c ∧ m.evaluate rights q now =
        .ok (.deny "hybrid" .conditionFailed
          (b.model ++ " allowed but constraint '" ++ c.name ++ "' does not hold"))) ∧
    (∀ b, inner.evaluate rights q now = .ok b → b.allowed = false → ¬AnyPermits exemptions q now →
      m.evaluate rights q now = .ok b) ∧
    (∀ e, m.evaluate rights q now = .error e ↔ inner.evaluate rights q now = .error e) ∧
    (∀ e, m.evaluate rights q now = .error e ↔ m.core.evaluate rights q now = .error e) ∧
    (m.Allows rights q now ↔ ∃ inside outside, m.levels = inside ++ outside ∧
      m.core.Opened inside rights q now ∧ ∀ l ∈ outside, Satisfied l.constraints q now) ∧
    (q.InScope → m.decide rights q now = m.evaluate rights q now) ∧
    (¬q.InScope → ∃ d : Decision, d.allowed = false ∧
      ∀ inner' constraints' exemptions' rights' now',
        (hybrid inner' constraints' exemptions').decide rights' q now' = .ok d) := by
  intro m
  refine ⟨allows_hybrid, ?_, ?_, fun e => evaluate_hybrid_error, fun e => ?_, ?_, decide_in_scope, ?_⟩
  · intro b hb hallowed hbroken
    obtain ⟨c, hc⟩ := Rule.not_satisfied_iff.1 hbroken
    exact ⟨c, hc, by rw [evaluate_hybrid_ok hb, refine_broken hallowed hc]⟩
  · intro b hb hdenied hnone
    rw [evaluate_hybrid_ok hb, refine_untouched hdenied hnone]
  · rw [← error_around m.core m.levels, around_levels]
  · rw [← allows_around m.core m.levels, around_levels]
  · intro hscope
    obtain ⟨d, hdenied, hd⟩ := decide_out_of_scope hscope "hybrid"
    exact ⟨d, hdenied, fun inner' constraints' exemptions' => hd _ rfl⟩

namespace Sample

/-- A subject asks to read what it owns. -/
def ownerReads (tenant : TenantId) : Request where
  identity := .bare { (default : Subject) with id := ⟨"alice"⟩, tenant := ⟨"acme"⟩ } default
  resource := (Resource.new tenant "documents").withAttribute "owner_id" (.str "alice")
  action := "read"
  context := .empty

/-- Everything is allowed, but the doors are closed; owners may read. -/
def closed : Model := hybrid (.rules [.new "open" (.all [])]) [.new "closed" (.any [])] [.ownerRead]

/-- An owner is exempt from a denial but not from a constraint of the same level; the denial stays
as it is further out, where only an exemption can change it. Another tenant's resource is out of
scope. -/
theorem nested_decisions_closed :
    let q := ownerReads ⟨"acme"⟩
    let denial := Decision.deny "hybrid" .conditionFailed
      "abac allowed but constraint 'closed' does not hold"
    AnyPermits [.ownerRead] q default ∧
      closed.evaluate default q default = .ok denial ∧
      (hybrid closed [] []).decide default q default = .ok denial ∧
      (hybrid closed [] [.hours ["read"] 0 24]).Allows default q default ∧
      ∃ d : Decision, d.allowed = false ∧
        (hybrid closed [] []).decide default (ownerReads ⟨"globex"⟩) default = .ok d := by
  intro q denial
  have howner : AnyPermits [.ownerRead] q default := ⟨_, List.mem_singleton_self _, by decide, rfl⟩
  have hbroken : ¬Satisfied [.new "closed" (.any [])] q default := by
    intro h
    exact absurd (h _ (List.mem_singleton_self _) (by decide)) (by decide)
  have hclosed : closed.evaluate default q default = .ok denial := by
    obtain ⟨-, hnarrowed, -⟩ := nested_decisions (.rules [.new "open" (.all [])])
      [.new "closed" (.any [])] [.ownerRead] default q default
    obtain ⟨c, ⟨before, after, hlist, -⟩, hd⟩ := hnarrowed _ rfl (by decide) hbroken
    obtain rfl : c = .new "closed" (.any []) := by
      have hmem : c ∈ [Rule.new "closed" (.any [])] := by rw [hlist]; simp
      exact List.mem_singleton.1 hmem
    exact hd
  obtain ⟨-, -, huntouched, -, -, -, hin, hout⟩ := nested_decisions closed [] [] default q default
  have hscope : q.InScope := ⟨rfl, fun a ha => nomatch ha⟩
  obtain ⟨hallows, -⟩ :=
    nested_decisions closed [] [.hours ["read"] 0 24] default q default
  refine ⟨howner, hclosed, ?_, ?_, ?_⟩
  · rw [hin hscope]
    exact huntouched _ hclosed rfl (by rintro ⟨x, hx, -⟩; cases hx)
  · exact hallows.2 (.inr ⟨⟨_, hclosed, rfl⟩, _, List.mem_singleton_self _, by decide, by decide⟩)
  · obtain ⟨-, -, -, -, -, -, -, hforeign⟩ :=
      nested_decisions closed [] [] default (ownerReads ⟨"globex"⟩) default
    obtain ⟨d, hdenied, hd⟩ := hforeign fun h => absurd h.1 (by decide)
    exact ⟨d, hdenied, hd _ _ _ _ _⟩

end Sample

end Model

end AccessControl
