import AccessControl.Policy.Store
import Mathlib.Data.List.Forall2

/-!
# What a policy matches

When a policy can be stored and when it applies to a request, in terms of its own patterns and
conditions. A stored policy carries its patterns already read; it applies exactly where the policy
it was made from does (`StoredPolicy.applies_iff`).
-/

/-- A list is read element by element, and no element may fail. -/
theorem Except.mapM_eq_ok {ε α β : Type} {f : α → Except ε β} {xs : List α} {ys : List β} :
    xs.mapM f = .ok ys ↔ List.Forall₂ (fun x y => f x = .ok y) xs ys := by
  induction xs generalizing ys with
  | nil => cases ys <;> simp [pure, Except.pure]
  | cons x xs ih =>
    rw [List.mapM_cons, Except.bind_eq_ok, List.forall₂_cons_left_iff]
    constructor
    · rintro ⟨y, hy, h⟩
      obtain ⟨zs, hzs, h⟩ := Except.bind_eq_ok.1 h
      exact ⟨y, zs, hy, ih.1 hzs, (Except.ok.inj h).symm⟩
    · rintro ⟨y, zs, hy, hzs, rfl⟩
      exact ⟨y, hy, Except.bind_eq_ok.2 ⟨zs, ih.2 hzs, rfl⟩⟩

namespace AccessControl

namespace Glob

/-- The first text is a pattern that matches the second. -/
def Accepts (pattern text : String) : Prop := ∃ g, parse pattern = .ok g ∧ g.matches? text

/-- Some pattern matches some text. -/
def AnyAccepts (patterns texts : List String) : Prop :=
  ∃ pattern ∈ patterns, ∃ text ∈ texts, Accepts pattern text

/-- There are patterns, and each can be read. -/
def Readable (patterns : List String) : Prop :=
  patterns ≠ [] ∧ ∀ pattern ∈ patterns, ∃ g, parse pattern = .ok g

end Glob

namespace Policy

/-- The policy has an id and can be read. -/
structure Valid (p : Policy) : Prop where
  id : Text.isBlank p.id = false
  subjects : Glob.Readable p.subjects
  resources : Glob.Readable p.resources
  actions : Glob.Readable p.actions

/-- The scope of the policy, its patterns and its conditions all fit the request. -/
structure Matches (p : Policy) (q : Request) : Prop where
  app : ∀ a ∈ p.app, a = q.identity.app
  subject : Glob.AnyAccepts p.subjects q.subjectNames
  resource : Glob.AnyAccepts p.resources q.resourceNames
  action : Glob.AnyAccepts p.actions [q.action]
  conditions : ∀ c ∈ p.conditions.toList, conditionHolds q c.1 c.2

end Policy

namespace StoredPolicy

/-- The globs are the patterns as they are read. -/
def Read (patterns : List String) (globs : List Glob) : Prop :=
  List.Forall₂ (fun p g => Glob.parse p = .ok g) patterns globs

theorem exists_read {patterns : List String} :
    (∃ globs, Read patterns globs) ↔ ∀ p ∈ patterns, ∃ g, Glob.parse p = .ok g := by
  unfold Read
  induction patterns with
  | nil => simp
  | cons p ps ih =>
    simp only [List.forall₂_cons_left_iff, List.forall_mem_cons]
    rw [← ih]
    constructor
    · rintro ⟨_, g, gs, hg, hgs, rfl⟩
      exact ⟨⟨g, hg⟩, gs, hgs⟩
    · rintro ⟨⟨g, hg⟩, gs, hgs⟩
      exact ⟨g :: gs, g, gs, hg, hgs, rfl⟩

theorem readPatterns_eq_ok {id field : String} {patterns : List String} {globs : List Glob} :
    readPatterns id field patterns = .ok globs ↔ patterns ≠ [] ∧ Read patterns globs := by
  unfold readPatterns
  by_cases hnil : patterns = []
  · simp [hnil]
  · have hempty : patterns.isEmpty = false := List.isEmpty_eq_false_iff.2 hnil
    rw [hempty, if_neg Bool.false_ne_true, Except.mapM_eq_ok]
    constructor
    · intro h
      refine ⟨hnil, h.imp fun p g hg => ?_⟩
      cases hp : Glob.parse p with
      | error e => simp [hp] at hg
      | ok g' => simpa [hp] using hg
    · rintro ⟨-, h⟩
      refine h.imp fun p g hg => ?_
      rw [hg]

theorem exists_readPatterns {id field : String} {patterns : List String} :
    (∃ globs, readPatterns id field patterns = .ok globs) ↔ Glob.Readable patterns := by
  simp only [readPatterns_eq_ok, exists_and_left, exists_read]
  rfl

theorem ofPolicy_eq_ok {p : Policy} {n : Nat} {s : StoredPolicy} :
    ofPolicy p n = .ok s ↔ Text.isBlank p.id = false ∧ s.policy = p ∧ s.number = n ∧
      readPatterns p.id "subject" p.subjects = .ok s.subjects ∧
      readPatterns p.id "resource" p.resources = .ok s.resources ∧
      readPatterns p.id "action" p.actions = .ok s.actions := by
  unfold ofPolicy
  cases hblank : Text.isBlank p.id with
  | true => simp [throw, throwThe, MonadExceptOf.throw, bind, Except.bind]
  | false =>
    simp only [Bool.false_eq_true, if_false, Except.bind_eq_ok, true_and]
    constructor
    · rintro ⟨subjects, hsubjects, resources, hresources, actions, hactions, h⟩
      obtain rfl := Except.ok.inj h
      exact ⟨rfl, rfl, hsubjects, hresources, hactions⟩
    · rintro ⟨rfl, rfl, hsubjects, hresources, hactions⟩
      exact ⟨s.subjects, hsubjects, s.resources, hresources, s.actions, hactions, rfl⟩

/-- The number does not matter for whether a policy can be stored. -/
theorem exists_ofPolicy {p : Policy} {n : Nat} : (∃ s, ofPolicy p n = .ok s) ↔ p.Valid := by
  constructor
  · rintro ⟨s, hs⟩
    obtain ⟨hblank, -, -, hsubjects, hresources, hactions⟩ := ofPolicy_eq_ok.1 hs
    exact ⟨hblank, exists_readPatterns.1 ⟨_, hsubjects⟩, exists_readPatterns.1 ⟨_, hresources⟩,
      exists_readPatterns.1 ⟨_, hactions⟩⟩
  · intro hp
    obtain ⟨subjects, hsubjects⟩ := exists_readPatterns.2 hp.subjects
    obtain ⟨resources, hresources⟩ := exists_readPatterns.2 hp.resources
    obtain ⟨actions, hactions⟩ := exists_readPatterns.2 hp.actions
    exact ⟨⟨p, subjects, resources, actions, n⟩,
      ofPolicy_eq_ok.2 ⟨hp.id, rfl, rfl, hsubjects, hresources, hactions⟩⟩

theorem Read.anyMatches_iff {patterns names : List String} {globs : List Glob}
    (h : Read patterns globs) : anyMatches globs names ↔ Glob.AnyAccepts patterns names := by
  have hany : ∀ text, (globs.any (·.matches? text)) = true ↔
      ∃ pattern ∈ patterns, Glob.Accepts pattern text := by
    intro text
    unfold Read at h
    induction h with
    | nil => simp
    | @cons p g ps gs hp hps ih =>
      have hhead : g.matches? text = true ↔ Glob.Accepts p text := by simp [Glob.Accepts, hp]
      rw [List.any_cons, Bool.or_eq_true, ih, hhead, List.exists_mem_cons_iff]
  simp only [anyMatches, List.any_eq_true, hany, Glob.AnyAccepts]
  constructor
  · rintro ⟨text, htext, pattern, hpattern, h⟩
    exact ⟨pattern, hpattern, text, htext, h⟩
  · rintro ⟨pattern, hpattern, text, htext, h⟩
    exact ⟨text, htext, pattern, hpattern, h⟩

/-- A stored policy applies where the policy that it was made from matches. -/
theorem applies_iff {p : Policy} {n : Nat} {s : StoredPolicy} (h : ofPolicy p n = .ok s)
    (q : Request) : s.applies q ↔ p.Matches q := by
  obtain ⟨-, rfl, -, hsubjects, hresources, hactions⟩ := ofPolicy_eq_ok.1 h
  unfold applies
  rw [Bool.and_eq_true, Bool.and_eq_true, Bool.and_eq_true, Bool.and_eq_true,
    (readPatterns_eq_ok.1 hsubjects).2.anyMatches_iff,
    (readPatterns_eq_ok.1 hresources).2.anyMatches_iff,
    (readPatterns_eq_ok.1 hactions).2.anyMatches_iff, Policy.conditionsHold, List.all_eq_true]
  constructor
  · rintro ⟨⟨⟨⟨happ, hsubject⟩, hresource⟩, haction⟩, hconditions⟩
    refine ⟨?_, hsubject, hresource, haction, hconditions⟩
    intro a ha
    rw [Option.mem_def.1 ha] at happ
    exact of_decide_eq_true happ
  · rintro ⟨happ, hsubject, hresource, haction, hconditions⟩
    refine ⟨⟨⟨⟨?_, hsubject⟩, hresource⟩, haction⟩, hconditions⟩
    cases ha : s.policy.app with
    | none => rfl
    | some a => exact decide_eq_true (happ a ha)

end StoredPolicy

end AccessControl
