import AccessControl.Policy.Store
import Mathlib.Data.List.Pairwise

/-!
# How policies are combined

The four ways to combine policies, stated over any set of policies that match (`Combining.Decides`):
a policy in the set comes with the position of its last insertion, which settles ties. The decision
is determined by the set (`Decides.unique`) and by nothing else about the history that led to it
(`Decides.transfer`), and `Combining.combine` makes it (`combine_decides`).
-/

namespace AccessControl

/-- The denial that a policy alone leads to, or none if it allows. -/
def Effect.denial : Effect → Option Denial
  | allow => none
  | deny => some .policyDenied

theorem Effect.denial_of_ne_deny {e : Effect} (h : e ≠ deny) : e.denial = none := by
  cases e with
  | allow => rfl
  | deny => exact absurd rfl h

theorem Instant.eq_iff {a b : Instant} : a = b ↔ a.seconds = b.seconds ∧ a.nanos = b.nanos := by
  cases a
  cases b
  simp

namespace Combining

/-- The first policy, inserted as number `i`, has precedence over the second: by higher priority,
then by earlier creation, then by earlier insertion. -/
def Before (i : Nat) (p : Policy) (j : Nat) (p' : Policy) : Prop :=
  p'.priority < p.priority ∨ (p.priority = p'.priority ∧
    (p.createdAt < p'.createdAt ∨ (p.createdAt = p'.createdAt ∧ i < j)))

/-- What the policies that match decide: a kind of denial, or none if the request is allowed. -/
inductive Decides (M : Nat → Policy → Prop) : Combining → Option Denial → Prop
  | unmatched {a : Combining} : (∀ i p, ¬M i p) → Decides M a (some .noMatchingPolicy)
  | denied {i : Nat} {p : Policy} : M i p → p.effect = .deny →
      Decides M denyOverrides (some .policyDenied)
  | undenied {i : Nat} {p : Policy} : M i p → (∀ j p', M j p' → p'.effect ≠ .deny) →
      Decides M denyOverrides none
  | permitted {i : Nat} {p : Policy} : M i p → p.effect = .allow → Decides M permitOverrides none
  | unpermitted {i : Nat} {p : Policy} : M i p → (∀ j p', M j p' → p'.effect ≠ .allow) →
      Decides M permitOverrides (some .policyDenied)
  | first {i : Nat} {p : Policy} : M i p → (∀ j p', M j p' → p' = p ∨ Before i p j p') →
      Decides M firstApplicable p.effect.denial
  | only {i : Nat} {p : Policy} : M i p → (∀ j p', M j p' → p' = p) →
      Decides M onlyOneApplicable p.effect.denial
  | several {i j : Nat} {p p' : Policy} : M i p → M j p' → p ≠ p' →
      Decides M onlyOneApplicable (some .indeterminate)

variable {M M' : Nat → Policy → Prop} {a : Combining} {d d' : Option Denial} {i j k : Nat}
  {p p' p'' : Policy}

/-! ### Precedence -/

theorem Before.asymm (h : Before i p j p') : ¬Before j p' i p := by
  simp only [Before, Instant.lt_def, Instant.eq_iff] at *
  omega

theorem Before.trans (h : Before i p j p') (h' : Before j p' k p'') : Before i p k p'' := by
  simp only [Before, Instant.lt_def, Instant.eq_iff] at *
  omega

/-- Between a policy and one that it has precedence over there is room for a third on one side
only. -/
theorem Before.split (h : Before i p k p'') (j : Nat) (p' : Policy) :
    Before i p j p' ∨ Before j p' k p'' := by
  simp only [Before, Instant.lt_def, Instant.eq_iff] at *
  omega

theorem Before.total (h : i ≠ j) : Before i p j p' ∨ Before j p' i p := by
  simp only [Before, Instant.lt_def, Instant.eq_iff] at *
  omega

/-! ### The decision is a function of the policies that match -/

theorem Decides.unique (h : a.Decides M d) (h' : a.Decides M d') : d = d' := by
  cases h with
  | unmatched hnone =>
    cases h' with
    | unmatched _ => rfl
    | denied hp _ | undenied hp _ | permitted hp _ | unpermitted hp _ | first hp _ | only hp _
    | several hp _ _ => exact absurd hp (hnone _ _)
  | denied hp hdeny =>
    cases h' with
    | unmatched hnone => exact absurd hp (hnone _ _)
    | denied _ _ => rfl
    | undenied _ hall => exact absurd hdeny (hall _ _ hp)
  | undenied hp hall =>
    cases h' with
    | unmatched hnone => exact absurd hp (hnone _ _)
    | denied hp' hdeny => exact absurd hdeny (hall _ _ hp')
    | undenied _ _ => rfl
  | permitted hp hallow =>
    cases h' with
    | unmatched hnone => exact absurd hp (hnone _ _)
    | permitted _ _ => rfl
    | unpermitted _ hall => exact absurd hallow (hall _ _ hp)
  | unpermitted hp hall =>
    cases h' with
    | unmatched hnone => exact absurd hp (hnone _ _)
    | permitted hp' hallow => exact absurd hallow (hall _ _ hp')
    | unpermitted _ _ => rfl
  | first hp hfirst =>
    cases h' with
    | unmatched hnone => exact absurd hp (hnone _ _)
    | first hp' hfirst' =>
      rcases hfirst _ _ hp' with heq | hbefore
      · rw [heq]
      · rcases hfirst' _ _ hp with heq | hbefore'
        · rw [heq]
        · exact absurd hbefore' hbefore.asymm
  | only hp honly =>
    cases h' with
    | unmatched hnone => exact absurd hp (hnone _ _)
    | only hp' _ => rw [honly _ _ hp']
    | several hp' hq' hne => exact absurd ((honly _ _ hp').trans (honly _ _ hq').symm) hne
  | several hp hq hne =>
    cases h' with
    | unmatched hnone => exact absurd hp (hnone _ _)
    | only _ honly => exact absurd ((honly _ _ hp).trans (honly _ _ hq).symm) hne
    | several _ _ _ => rfl

/-- Two sets of the same policies lead to the same decision; where the first of them decides, those
that are equal in priority and age must have been inserted in the same order. -/
theorem Decides.transfer (h : a.Decides M d) (hsame : ∀ p, (∃ i, M i p) ↔ ∃ i, M' i p)
    (hties : a = firstApplicable → ∀ i p j p' i' j', M i p → M j p' → M' i' p → M' j' p' →
      p.priority = p'.priority → p.createdAt = p'.createdAt → i < j → i' < j') :
    a.Decides M' d := by
  have hback : ∀ {j p}, M' j p → ∃ i, M i p := fun hp => (hsame _).2 ⟨_, hp⟩
  have hforth : ∀ {i p}, M i p → ∃ j, M' j p := fun hp => (hsame _).1 ⟨_, hp⟩
  cases h with
  | unmatched hnone =>
    refine .unmatched fun j p hp => ?_
    obtain ⟨i, hi⟩ := hback hp
    exact hnone i p hi
  | denied hp hdeny =>
    obtain ⟨j, hj⟩ := hforth hp
    exact .denied hj hdeny
  | undenied hp hall =>
    obtain ⟨j, hj⟩ := hforth hp
    refine .undenied hj fun j' p' hp' => ?_
    obtain ⟨i', hi'⟩ := hback hp'
    exact hall i' p' hi'
  | permitted hp hallow =>
    obtain ⟨j, hj⟩ := hforth hp
    exact .permitted hj hallow
  | unpermitted hp hall =>
    obtain ⟨j, hj⟩ := hforth hp
    refine .unpermitted hj fun j' p' hp' => ?_
    obtain ⟨i', hi'⟩ := hback hp'
    exact hall i' p' hi'
  | first hp hfirst =>
    obtain ⟨j, hj⟩ := hforth hp
    refine .first hj fun j' p' hp' => ?_
    obtain ⟨i', hi'⟩ := hback hp'
    rcases hfirst i' p' hi' with heq | hpriority | ⟨hpriority, hage | ⟨hage, hlt⟩⟩
    · exact .inl heq
    · exact .inr (.inl hpriority)
    · exact .inr (.inr ⟨hpriority, .inl hage⟩)
    · have hlt' := hties rfl _ _ _ _ _ _ hp hi' hj hp' hpriority hage hlt
      exact .inr (.inr ⟨hpriority, .inr ⟨hage, hlt'⟩⟩)
  | only hp honly =>
    obtain ⟨j, hj⟩ := hforth hp
    refine .only hj fun j' p' hp' => ?_
    obtain ⟨i', hi'⟩ := hback hp'
    exact honly i' p' hi'
  | several hp hq hne =>
    obtain ⟨j, hj⟩ := hforth hp
    obtain ⟨k, hk⟩ := hforth hq
    exact .several hj hk hne

/-! ### The decision is made -/

variable {s : StoredPolicy} {l : List StoredPolicy}

/-- The policies of a list, each with its number. -/
def Listed (l : List StoredPolicy) (n : Nat) (p : Policy) : Prop :=
  ∃ s ∈ l, s.number = n ∧ s.policy = p

theorem Listed.of_mem (h : s ∈ l) : Listed l s.number s.policy := ⟨s, h, rfl, rfl⟩

@[simp] theorem denial_decisionOf (a : Combining) (p : Policy) :
    (decisionOf a p).denial = p.effect.denial := by
  unfold decisionOf
  cases p.effect <;> rfl

theorem precedes_iff {s' : StoredPolicy} :
    precedes s s' = true ↔ Before s.number s.policy s'.number s'.policy := by
  simp [precedes, Before]

/-- The leading policy is one of them, and none of them has precedence over it. -/
theorem leading_spec (s : StoredPolicy) (l : List StoredPolicy) : ∃ best ∈ s :: l,
    leading s l = best.policy ∧ ∀ x ∈ s :: l, ¬precedes x best := by
  induction l generalizing s with
  | nil =>
    refine ⟨s, List.mem_singleton_self s, rfl, fun x hx h => ?_⟩
    obtain rfl := List.mem_singleton.1 hx
    exact (precedes_iff.1 h).asymm (precedes_iff.1 h)
  | cons y l ih =>
    have hstep : leading s (y :: l) = leading (if precedes y s then y else s) l := rfl
    by_cases hy : precedes y s
    · obtain ⟨best, hbest, hleading, hall⟩ := ih y
      rw [if_pos hy] at hstep
      refine ⟨best, List.mem_cons_of_mem s hbest, hstep.trans hleading, ?_⟩
      rw [List.forall_mem_cons]
      refine ⟨fun h => ?_, hall⟩
      have hyb := (precedes_iff.1 hy).trans (precedes_iff.1 h)
      exact hall y List.mem_cons_self (precedes_iff.2 hyb)
    · obtain ⟨best, hbest, hleading, hall⟩ := ih s
      rw [if_neg hy] at hstep
      obtain ⟨hs, hl⟩ := List.forall_mem_cons.1 hall
      refine ⟨best, ?_, hstep.trans hleading, ?_⟩
      · rcases List.mem_cons.1 hbest with rfl | hbest
        · exact List.mem_cons_self
        · exact List.mem_cons_of_mem s (List.mem_cons_of_mem y hbest)
      · rw [List.forall_mem_cons, List.forall_mem_cons]
        refine ⟨hs, fun h => ?_, hl⟩
        rcases (precedes_iff.1 h).split s.number s.policy with hys | hsb
        · exact hy (precedes_iff.2 hys)
        · exact hs (precedes_iff.2 hsb)

/-- Either some policy has the effect and the choice is one of these, or none has it. -/
theorem firstWith_spec (e : Effect) (s : StoredPolicy) (l : List StoredPolicy) :
    (∃ x ∈ s :: l, firstWith e s l = x.policy ∧ x.policy.effect = e) ∨
      ((∀ x ∈ s :: l, x.policy.effect ≠ e) ∧ firstWith e s l = s.policy) := by
  unfold firstWith
  cases hfind : (s :: l).find? (·.policy.effect = e) with
  | none =>
    refine .inr ⟨fun x hx he => ?_, rfl⟩
    have hx := List.find?_eq_none.1 hfind x hx
    exact hx (decide_eq_true he)
  | some x =>
    have he := List.find?_some hfind
    rw [decide_eq_true_eq] at he
    exact .inl ⟨x, List.mem_of_find?_eq_some hfind, rfl, he⟩

/-- Stored by different insertions, and not the same policy again. -/
def Distinct (s s' : StoredPolicy) : Prop := s.number ≠ s'.number ∧ s.policy ≠ s'.policy

instance : Std.Symm Distinct := ⟨fun _ _ h => ⟨h.1.symm, h.2.symm⟩⟩

theorem Listed.forall {P : Policy → Prop} (h : ∀ x ∈ l, P x.policy) :
    ∀ n p, Listed l n p → P p := by
  rintro n p ⟨x, hx, -, rfl⟩
  exact h x hx

/-- Distinct policies are combined as their set asks for. -/
theorem combine_decides (hl : l.Pairwise Distinct) :
    a.Decides (Listed l) (a.combine l).denial := by
  cases l with
  | nil =>
    refine .unmatched ?_
    rintro n p ⟨x, hx, -⟩
    cases hx
  | cons s l =>
    have hs : Listed (s :: l) s.number s.policy := .of_mem List.mem_cons_self
    cases a with
    | denyOverrides =>
      rw [combine, denial_decisionOf]
      rcases firstWith_spec .deny s l with ⟨x, hx, hfirst, hdeny⟩ | ⟨hall, hfirst⟩
      · rw [hfirst, hdeny]
        exact .denied (.of_mem hx) hdeny
      · rw [hfirst, Effect.denial_of_ne_deny (hall s List.mem_cons_self)]
        exact .undenied hs (Listed.forall hall)
    | permitOverrides =>
      rw [combine, denial_decisionOf]
      rcases firstWith_spec .allow s l with ⟨x, hx, hfirst, hallow⟩ | ⟨hall, hfirst⟩
      · rw [hfirst, hallow]
        exact .permitted (.of_mem hx) hallow
      · have hdeny : s.policy.effect = .deny := by
          cases he : s.policy.effect with
          | allow => exact absurd he (hall s List.mem_cons_self)
          | deny => rfl
        rw [hfirst, hdeny]
        exact .unpermitted hs (Listed.forall hall)
    | firstApplicable =>
      rw [combine, denial_decisionOf]
      obtain ⟨best, hbest, hleading, hall⟩ := leading_spec s l
      rw [hleading]
      refine .first (.of_mem hbest) ?_
      rintro n p ⟨x, hx, rfl, rfl⟩
      by_cases hxb : x.policy = best.policy
      · exact .inl hxb
      · -- different policies of the list have different numbers
        have hne : best.number ≠ x.number := by
          have hdiff : best ≠ x := fun h => hxb (h ▸ rfl)
          exact (hl.forall hbest hx hdiff).1
        rcases Before.total hne with h | h
        · exact .inr h
        · exact absurd (precedes_iff.2 h) (hall x hx)
    | onlyOneApplicable =>
      cases l with
      | nil =>
        have hdecision : (combine onlyOneApplicable [s]).denial = s.policy.effect.denial :=
          denial_decisionOf onlyOneApplicable s.policy
        rw [hdecision]
        refine .only hs ?_
        rintro n p ⟨x, hx, -, rfl⟩
        rw [List.mem_singleton.1 hx]
      | cons y l =>
        have hy : Listed (s :: y :: l) y.number y.policy :=
          .of_mem (List.mem_cons_of_mem s List.mem_cons_self)
        have hne := (List.pairwise_cons.1 hl).1 y List.mem_cons_self
        exact .several hs hy hne.2

end Combining

end AccessControl
