import AccessControl.Model
import AccessControl.Proofs.Policy.Combining
import AccessControl.Proofs.Policy.History

/-!
# What a policy store answers after a history of changes

The policies that stand after the history, belong to the tenant of the request and match it are the
candidates, and the answer is the decision that they ask for (`PolicyStore.answer_spec`). Of the
history nothing else matters.
-/

namespace AccessControl

namespace PolicyStore

/-- The policy stands after the history, last inserted by the `i`-th change, and it is one of the
identity's tenant and matches the request. -/
structure Candidate (es : List PolicyEdit) (q : Request) (i : Nat) (p : Policy) : Prop where
  stands : p.Stands es i
  tenant : p.tenant = q.identity.tenant
  fits : p.Matches q

/-- What the store answers to a request after a history of changes. -/
def answer (es : List PolicyEdit) (a : Combining) (rights : Rights) (q : Request) (now : Instant) :
    Except DecisionError Decision :=
  (Model.policies a).evaluate { rights with policies := .ok (after es) } q now

variable {es : List PolicyEdit} {q : Request} {p : Policy} {i : Nat} {s : StoredPolicy}

theorem mem_applicable (es : List PolicyEdit) (q : Request) (s : StoredPolicy) :
    s ∈ (after es).applicable q ↔ ∃ i, Candidate es q i s.policy ∧
      StoredPolicy.ofPolicy s.policy (numberAt es i) = .ok s := by
  unfold applicable
  rw [List.mem_filter, mem_after, Bool.and_eq_true, decide_eq_true_eq]
  constructor
  · rintro ⟨⟨i, hi, hs⟩, htenant, happlies⟩
    exact ⟨i, ⟨hi, htenant, (StoredPolicy.applies_iff hs q).1 happlies⟩, hs⟩
  · rintro ⟨i, ⟨hi, htenant, hfits⟩, hs⟩
    exact ⟨⟨i, hi, hs⟩, htenant, (StoredPolicy.applies_iff hs q).2 hfits⟩

theorem number_of_ofPolicy {n : Nat} (h : StoredPolicy.ofPolicy p n = .ok s) : s.number = n :=
  (StoredPolicy.ofPolicy_eq_ok.1 h).2.2.1

theorem applicable_distinct (es : List PolicyEdit) (q : Request) :
    ((after es).applicable q).Pairwise Combining.Distinct := by
  refine List.Pairwise.imp_of_mem ?_ ((after_apart es).filter _)
  intro s s' hs hs' hapart
  obtain ⟨i, hi, hread⟩ := (mem_applicable es q s).1 hs
  obtain ⟨j, hj, hread'⟩ := (mem_applicable es q s').1 hs'
  have hpolicy : s.policy ≠ s'.policy := fun h => hapart ⟨h ▸ rfl, h ▸ rfl⟩
  refine ⟨fun hnumber => ?_, hpolicy⟩
  rw [number_of_ofPolicy hread, number_of_ofPolicy hread'] at hnumber
  rcases Nat.lt_trichotomy i j with hij | rfl | hij
  · exact Nat.ne_of_lt (numberAt_lt hi.stands hij) hnumber
  · have heq := hi.stands.inserted.symm.trans hj.stands.inserted
    exact hpolicy (PolicyEdit.insert.inj (Option.some.inj heq))
  · exact Nat.ne_of_gt (numberAt_lt hj.stands hij) hnumber

theorem listed_iff (es : List PolicyEdit) (q : Request) (n : Nat) (p : Policy) :
    Combining.Listed ((after es).applicable q) n p ↔
      ∃ i, Candidate es q i p ∧ n = numberAt es i := by
  constructor
  · rintro ⟨s, hs, rfl, rfl⟩
    obtain ⟨i, hi, hread⟩ := (mem_applicable es q s).1 hs
    exact ⟨i, hi, number_of_ofPolicy hread⟩
  · rintro ⟨i, hi, rfl⟩
    obtain ⟨s, hs⟩ := StoredPolicy.exists_ofPolicy.2 hi.stands.valid
    have hpolicy := StoredPolicy.policy_of_ofPolicy hs
    refine ⟨s, (mem_applicable es q s).2 ⟨i, ?_, ?_⟩, number_of_ofPolicy hs, hpolicy⟩
    · rw [hpolicy]
      exact hi
    · rw [hpolicy, hs]

/-- The candidates are the policies that the store finds. -/
theorem exists_candidate_iff : (∃ i, Candidate es q i p) ↔
    p ∈ ((after es).applicable q).map (·.policy) := by
  rw [List.mem_map]
  constructor
  · rintro ⟨i, hi⟩
    obtain ⟨s, hs, -, hp⟩ := (listed_iff es q _ p).2 ⟨i, hi, rfl⟩
    exact ⟨s, hs, hp⟩
  · rintro ⟨s, hs, rfl⟩
    obtain ⟨i, hi, -⟩ := (mem_applicable es q s).1 hs
    exact ⟨i, hi⟩

/-- The store decides as the candidates ask for. -/
theorem applicable_decides (es : List PolicyEdit) (a : Combining) (q : Request) :
    a.Decides (Candidate es q) (a.combine ((after es).applicable q)).denial := by
  refine (Combining.combine_decides (applicable_distinct es q)).transfer (fun p => ?_) ?_
  · simp only [listed_iff]
    exact ⟨fun ⟨_, i, hi, _⟩ => ⟨i, hi⟩, fun ⟨i, hi⟩ => ⟨_, i, hi, rfl⟩⟩
  · intro _ m p n p' i j hm hn hi hj _ _ hlt
    obtain ⟨i', hi', rfl⟩ := (listed_iff es q m p).1 hm
    obtain ⟨j', hj', rfl⟩ := (listed_iff es q n p').1 hn
    obtain ⟨rfl, -⟩ := hi.stands.unique hi'.stands rfl rfl
    obtain ⟨rfl, -⟩ := hj.stands.unique hj'.stands rfl rfl
    by_contra hge
    exact absurd (numberAt_le es (Nat.le_of_not_lt hge)) (Nat.not_le_of_lt hlt)

/-- After any history of changes the store always answers, with the kind of decision that the
candidates ask for and no other. An insertion that fails, because the policy has no id or cannot be
read, leaves no trace; a tenant's policies have different ids; and two histories with the same
candidates lead to the same kind of decision, if where the first candidate decides they insert
candidates of one priority and age in one order. -/
theorem answer_spec (es : List PolicyEdit) :
    (∀ a rights q now, ∃ d, answer es a rights q now = .ok d ∧
      ∀ k, a.Decides (Candidate es q) k ↔ d.denial = k) ∧
    (∀ p, (∃ f, (after es).insert p = .error f) ↔ ¬p.Valid) ∧
    (∀ p f es', (after es).insert p = .error f →
      after (es ++ .insert p :: es') = after (es ++ es')) ∧
    (∀ tenant, (((after es).list tenant).map (·.id)).Nodup) ∧
    (∀ es' a rights rights' q now now',
      (∀ p, (∃ i, Candidate es q i p) ↔ ∃ i, Candidate es' q i p) →
      (a = .firstApplicable → ∀ i p j p' i' j', Candidate es q i p → Candidate es q j p' →
        Candidate es' q i' p → Candidate es' q j' p' → p.priority = p'.priority →
        p.createdAt = p'.createdAt → i < j → i' < j') →
      (answer es a rights q now).map (·.denial) =
        (answer es' a rights' q now').map (·.denial)) := by
  refine ⟨fun a rights q now => ⟨_, rfl, fun k => ?_⟩, fun p => insert_fails_iff _, ?_,
    nodup_ids es, ?_⟩
  · have hdecides := applicable_decides es a q
    exact ⟨fun h => hdecides.unique h, fun h => h ▸ hdecides⟩
  · intro p f es' hf
    have hrefused : (after es).edit (.insert p) = after es :=
      edit_refused ((insert_fails_iff _).1 ⟨f, hf⟩)
    have happend : ∀ l, after (es ++ l) = l.foldl edit (after es) := fun l => List.foldl_append
    rw [happend, happend, List.foldl_cons, hrefused]
  · intro es' a rights rights' q now now' hsame hties
    have hdecides := (applicable_decides es a q).transfer hsame hties
    exact congrArg Except.ok (hdecides.unique (applicable_decides es' a q))

namespace Sample

/-- A policy for everything that is done in one tenant. -/
def sweeping (id : String) (effect : Effect) (priority : Int) : Policy :=
  ((((Policy.new id ⟨"acme"⟩ effect default).addSubjects ["*"]).addResources ["*"]).addActions
    ["*"]).withPriority priority

def request : Request where
  identity := .bare { (default : Subject) with tenant := ⟨"acme"⟩ } default
  resource := .new ⟨"acme"⟩ "documents"
  action := "read"
  context := .empty

/-- Two policies of different priority may be inserted in either order. -/
theorem answer_spec_swapped :
    let permit := sweeping "permit" .allow 1
    let forbid := sweeping "forbid" .deny 0
    (answer [.insert permit, .insert forbid] .firstApplicable default request default).map
        (·.denial) =
      (answer [.insert forbid, .insert permit] .firstApplicable default request default).map
        (·.denial) ∧
    after ([.insert permit] ++ .insert (sweeping " " .deny 0) :: [.insert forbid]) =
      after ([.insert permit] ++ [.insert forbid]) := by
  intro permit forbid
  have hfound : ∀ p, (∃ i, Candidate [.insert permit, .insert forbid] request i p) ↔
      p = permit ∨ p = forbid := by
    intro p
    have hlist : ((after [.insert permit, .insert forbid]).applicable request).map (·.policy) =
        [permit, forbid] := by decide
    rw [exists_candidate_iff, hlist]
    simp
  have hfound' : ∀ p, (∃ i, Candidate [.insert forbid, .insert permit] request i p) ↔
      p = permit ∨ p = forbid := by
    intro p
    have hlist : ((after [.insert forbid, .insert permit]).applicable request).map (·.policy) =
        [forbid, permit] := by decide
    rw [exists_candidate_iff, hlist]
    simp [or_comm]
  refine ⟨(answer_spec [.insert permit, .insert forbid]).2.2.2.2 [.insert forbid, .insert permit] _
    _ _ _ _ _ (fun p => (hfound p).trans (hfound' p).symm) ?_,
    (answer_spec [.insert permit]).2.2.1 (sweeping " " .deny 0) .emptyId [.insert forbid] rfl⟩
  -- the priorities tell the two apart, so only a policy and itself can be in a tie
  intro _ i p j p' i' j' hi hj _ _ hpriority _ hlt
  have hsame : p = p' := by
    rcases (hfound p).1 ⟨i, hi⟩ with rfl | rfl <;> rcases (hfound p').1 ⟨j, hj⟩ with rfl | rfl
    · rfl
    · exact absurd hpriority (by decide)
    · exact absurd hpriority (by decide)
    · rfl
  subst hsame
  have hij := (hi.stands.unique hj.stands rfl rfl).1
  omega

end Sample

end PolicyStore

end AccessControl
