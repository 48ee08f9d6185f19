import AccessControl.Proofs.Policy.Matching
import Mathlib.Data.List.Induction

/-!
# The history of a policy store

A policy stands after a history of changes if it was inserted, could be stored, and no later change
concerns its id. The store holds exactly the policies that stand (`PolicyStore.mem_after`), each
with the number that the counter had reached when it was last inserted, so numbers follow the order
of the last insertions (`PolicyStore.numberAt_lt`).
-/

namespace AccessControl

/-- A change to the policies of a store. -/
inductive PolicyEdit
  | insert (p : Policy)
  | remove (tenant : TenantId) (id : String)

/-- What was under the id in the tenant is gone after the change. -/
def PolicyEdit.Touches (tenant : TenantId) (id : String) : PolicyEdit → Prop
  | insert p => p.Valid ∧ p.tenant = tenant ∧ p.id = id
  | remove tenant' id' => tenant' = tenant ∧ id' = id

namespace Policy

/-- The `i`-th change of the history inserts the policy, and it has not been replaced or removed
since. -/
structure Stands (p : Policy) (es : List PolicyEdit) (i : Nat) : Prop where
  inserted : es[i]? = some (.insert p)
  valid : p.Valid
  untouched : ∀ j e, i < j → es[j]? = some e → ¬e.Touches p.tenant p.id

variable {es : List PolicyEdit} {e : PolicyEdit} {i j : Nat} {p p' : Policy}

theorem Stands.lt (h : p.Stands es i) : i < es.length := by
  obtain ⟨hi, -⟩ := List.getElem?_eq_some_iff.1 h.inserted
  exact hi

theorem stands_concat : p.Stands (es ++ [e]) i ↔
    (p.Stands es i ∧ ¬e.Touches p.tenant p.id) ∨ (i = es.length ∧ e = .insert p ∧ p.Valid) := by
  constructor
  · intro h
    have hi := h.lt
    rw [List.length_append, List.length_singleton] at hi
    by_cases hlast : i = es.length
    · have he := h.inserted
      rw [hlast, List.getElem?_concat_length] at he
      exact .inr ⟨hlast, Option.some.inj he, h.valid⟩
    · have hold : i < es.length := by omega
      refine .inl ⟨⟨?_, h.valid, fun j e' hij he' => ?_⟩, ?_⟩
      · rw [← h.inserted, List.getElem?_append_left hold]
      · obtain ⟨hj, -⟩ := List.getElem?_eq_some_iff.1 he'
        exact h.untouched j e' hij (by rw [List.getElem?_append_left hj, he'])
      · exact h.untouched es.length e hold List.getElem?_concat_length
  · rintro (⟨h, he⟩ | ⟨rfl, rfl, hp⟩)
    · refine ⟨?_, h.valid, fun j e' hij he' => ?_⟩
      · rw [List.getElem?_append_left h.lt, h.inserted]
      · by_cases hj : j < es.length
        · rw [List.getElem?_append_left hj] at he'
          exact h.untouched j e' hij he'
        · obtain ⟨hj', he'⟩ := List.getElem?_eq_some_iff.1 he'
          rw [List.length_append, List.length_singleton] at hj'
          obtain rfl : j = es.length := by omega
          rw [List.getElem_concat_length rfl] at he'
          exact he' ▸ he
    · refine ⟨List.getElem?_concat_length, hp, fun j e' hij he' => ?_⟩
      obtain ⟨hj, -⟩ := List.getElem?_eq_some_iff.1 he'
      rw [List.length_append, List.length_singleton] at hj
      omega

/-- At most one policy stands under an id. -/
theorem Stands.unique (h : p.Stands es i) (h' : p'.Stands es j) (htenant : p.tenant = p'.tenant)
    (hid : p.id = p'.id) : i = j ∧ p = p' := by
  have hij : i = j := by
    rcases Nat.lt_trichotomy i j with hij | hij | hij
    · exact absurd ⟨h'.valid, htenant.symm, hid.symm⟩ (h.untouched j _ hij h'.inserted)
    · exact hij
    · exact absurd ⟨h.valid, htenant, hid⟩ (h'.untouched i _ hij h.inserted)
  subst hij
  have heq := h.inserted.symm.trans h'.inserted
  exact ⟨rfl, PolicyEdit.insert.inj (Option.some.inj heq)⟩

end Policy

namespace PolicyStore

variable {st : PolicyStore} {es : List PolicyEdit} {e : PolicyEdit} {i j : Nat} {p : Policy}
  {s : StoredPolicy}

/-- A change is made; an insertion that is refused changes nothing. -/
def edit (st : PolicyStore) : PolicyEdit → PolicyStore
  | .insert p => match st.insert p with
    | .ok st' => st'
    | .error _ => st
  | .remove tenant id => st.remove tenant id

/-- The store once a history of changes has been made to an empty one. -/
def after (es : List PolicyEdit) : PolicyStore := es.foldl edit empty

theorem after_concat (es : List PolicyEdit) (e : PolicyEdit) :
    after (es ++ [e]) = (after es).edit e := by
  unfold after
  rw [List.foldl_append, List.foldl_cons, List.foldl_nil]

theorem isAt_iff {tenant : TenantId} {id : String} :
    isAt tenant id s = true ↔ s.policy.tenant = tenant ∧ s.policy.id = id := by
  simp [isAt]

/-! ### One change -/

theorem insert_of_valid (st : PolicyStore) (hp : p.Valid) :
    ∃ s, StoredPolicy.ofPolicy p st.inserted = .ok s ∧
    st.insert p =
      .ok ⟨st.entries.filter (fun e => !isAt p.tenant p.id e) ++ [s], st.inserted + 1⟩ := by
  obtain ⟨s, hs⟩ := StoredPolicy.exists_ofPolicy.2 hp
  refine ⟨s, hs, ?_⟩
  unfold PolicyStore.insert
  rw [hs]
  rfl

/-- An insertion fails if the policy has no id or cannot be read, and for no other reason. -/
theorem insert_fails_iff (st : PolicyStore) : (∃ f, st.insert p = .error f) ↔ ¬p.Valid := by
  constructor
  · rintro ⟨f, hf⟩ hp
    obtain ⟨s, -, hinsert⟩ := insert_of_valid st hp
    rw [hf] at hinsert
    cases hinsert
  · intro hp
    cases hf : StoredPolicy.ofPolicy p st.inserted with
    | error f => exact ⟨f, by unfold PolicyStore.insert; rw [hf]; rfl⟩
    | ok s => exact absurd (StoredPolicy.exists_ofPolicy.1 ⟨s, hf⟩) hp

theorem edit_insert (st : PolicyStore) (hp : p.Valid) :
    ∃ s, StoredPolicy.ofPolicy p st.inserted = .ok s ∧
    st.edit (.insert p) =
      ⟨st.entries.filter (fun e => !isAt p.tenant p.id e) ++ [s], st.inserted + 1⟩ := by
  obtain ⟨s, hs, hinsert⟩ := insert_of_valid st hp
  refine ⟨s, hs, ?_⟩
  simp only [edit, hinsert]

theorem edit_refused (hp : ¬p.Valid) : st.edit (.insert p) = st := by
  obtain ⟨f, hf⟩ := (insert_fails_iff st).2 hp
  simp only [edit, hf]

theorem mem_edit : s ∈ (st.edit e).entries ↔
    (s ∈ st.entries ∧ ¬e.Touches s.policy.tenant s.policy.id) ∨
      (e = .insert s.policy ∧ StoredPolicy.ofPolicy s.policy st.inserted = .ok s) := by
  cases e with
  | remove tenant id =>
    have hkept : (!isAt tenant id s) = true ↔
        ¬(PolicyEdit.remove tenant id).Touches s.policy.tenant s.policy.id := by
      rw [Bool.not_eq_true', Bool.eq_false_iff, ne_eq, isAt_iff, PolicyEdit.Touches, eq_comm,
        eq_comm (a := s.policy.id)]
    simp only [edit, remove, List.mem_filter, hkept, reduceCtorEq, false_and, or_false]
  | insert p =>
    by_cases hp : p.Valid
    · obtain ⟨s', hs', hedit⟩ := edit_insert st hp
      have hkept : (!isAt p.tenant p.id s) = true ↔
          ¬(PolicyEdit.insert p).Touches s.policy.tenant s.policy.id := by
        rw [Bool.not_eq_true', Bool.eq_false_iff, ne_eq, isAt_iff, PolicyEdit.Touches, eq_comm,
          eq_comm (a := s.policy.id), and_iff_right hp]
      have hnew : s = s' ↔ PolicyEdit.insert p = .insert s.policy ∧
          StoredPolicy.ofPolicy s.policy st.inserted = .ok s := by
        constructor
        · rintro rfl
          have hpolicy := StoredPolicy.policy_of_ofPolicy hs'
          exact ⟨by rw [hpolicy], by rw [hpolicy, hs']⟩
        · rintro ⟨hpolicy, hs⟩
          rw [← PolicyEdit.insert.inj hpolicy, hs'] at hs
          exact (Except.ok.inj hs).symm
      rw [hedit, List.mem_append, List.mem_filter, List.mem_singleton, hkept, hnew]
    · have hvalid : ∀ n, StoredPolicy.ofPolicy s.policy n = .ok s → s.policy.Valid := by
        intro n hs
        exact StoredPolicy.exists_ofPolicy.1 ⟨s, hs⟩
      rw [edit_refused hp]
      constructor
      · intro hs
        exact .inl ⟨hs, fun h => hp h.1⟩
      · rintro (⟨hs, -⟩ | ⟨hpolicy, hs⟩)
        · exact hs
        · exact absurd (PolicyEdit.insert.inj hpolicy ▸ hvalid _ hs) hp

theorem inserted_le_edit (st : PolicyStore) (e : PolicyEdit) :
    st.inserted ≤ (st.edit e).inserted := by
  cases e with
  | remove tenant id => exact Nat.le_refl _
  | insert p =>
    by_cases hp : p.Valid
    · obtain ⟨s, -, hedit⟩ := edit_insert st hp
      rw [hedit]
      exact Nat.le_succ _
    · exact Nat.le_of_eq (by rw [edit_refused hp])

/-- No two policies of the store have the same id in the same tenant. -/
def Apart (st : PolicyStore) : Prop :=
  st.entries.Pairwise fun s s' =>
    ¬(s.policy.tenant = s'.policy.tenant ∧ s.policy.id = s'.policy.id)

theorem Apart.edit (h : st.Apart) (e : PolicyEdit) : (st.edit e).Apart := by
  cases e with
  | remove tenant id => exact h.filter _
  | insert p =>
    by_cases hp : p.Valid
    · obtain ⟨s, hs, hedit⟩ := edit_insert st hp
      have hpolicy := StoredPolicy.policy_of_ofPolicy hs
      unfold Apart
      rw [hedit, List.pairwise_append]
      refine ⟨h.filter _, List.pairwise_singleton _ _, fun s' hs' _ hlast hsame => ?_⟩
      obtain rfl := List.mem_singleton.1 hlast
      rw [hpolicy] at hsame
      have hat : isAt p.tenant p.id s' = true := isAt_iff.2 hsame
      have hkept := (List.mem_filter.1 hs').2
      rw [hat] at hkept
      cases hkept
    · rw [edit_refused hp]
      exact h

/-! ### A history of changes -/

theorem after_apart (es : List PolicyEdit) : (after es).Apart := by
  induction es using List.reverseRecOn with
  | nil => exact .nil
  | append_singleton es e ih =>
    rw [after_concat]
    exact ih.edit e

/-- How many policies were stored before the `i`-th change. -/
def numberAt (es : List PolicyEdit) (i : Nat) : Nat := (after (es.take i)).inserted

theorem numberAt_succ_of_some (he : es[i]? = some e) :
    numberAt es (i + 1) = ((after (es.take i)).edit e).inserted := by
  unfold numberAt
  rw [List.take_add_one, he, Option.toList_some, after_concat]

theorem numberAt_le (es : List PolicyEdit) (h : i ≤ j) : numberAt es i ≤ numberAt es j := by
  induction h with
  | refl => exact Nat.le_refl _
  | @step j _ ih =>
    refine Nat.le_trans ih ?_
    cases he : es[j]? with
    | none =>
      have hsame : es.take (j + 1) = es.take j := by
        rw [List.take_add_one, he, Option.toList_none, List.append_nil]
      exact Nat.le_of_eq (by rw [numberAt, numberAt, hsame])
    | some e =>
      rw [numberAt_succ_of_some he]
      exact inserted_le_edit _ e

/-- A policy that stands counts for all that are inserted later. -/
theorem numberAt_lt (h : p.Stands es i) (hij : i < j) : numberAt es i < numberAt es j := by
  refine Nat.lt_of_lt_of_le ?_ (numberAt_le es hij)
  obtain ⟨s, -, hedit⟩ := edit_insert (after (es.take i)) h.valid
  rw [numberAt_succ_of_some h.inserted, hedit]
  exact Nat.lt_succ_self _

theorem numberAt_concat (h : i ≤ es.length) : numberAt (es ++ [e]) i = numberAt es i := by
  unfold numberAt
  rw [List.take_append_of_le_length h]

/-- The store holds the policies that stand, numbered by their last insertion. -/
theorem mem_after : s ∈ (after es).entries ↔ ∃ i, s.policy.Stands es i ∧
    StoredPolicy.ofPolicy s.policy (numberAt es i) = .ok s := by
  induction es using List.reverseRecOn with
  | nil =>
    constructor
    · intro h
      cases h
    · rintro ⟨i, h, -⟩
      exact absurd h.lt (Nat.not_lt_zero i)
  | append_singleton es e ih =>
    have hnow : numberAt (es ++ [e]) es.length = (after es).inserted := by
      rw [numberAt_concat (Nat.le_refl _), numberAt, List.take_length]
    rw [after_concat, mem_edit, ih]
    constructor
    · rintro (⟨⟨i, hi, hs⟩, he⟩ | ⟨he, hs⟩)
      · refine ⟨i, Policy.stands_concat.2 (.inl ⟨hi, he⟩), ?_⟩
        rw [numberAt_concat (Nat.le_of_lt hi.lt), hs]
      · have hvalid := StoredPolicy.exists_ofPolicy.1 ⟨s, hs⟩
        refine ⟨es.length, Policy.stands_concat.2 (.inr ⟨rfl, he, hvalid⟩), ?_⟩
        rw [hnow, hs]
    · rintro ⟨i, hi, hs⟩
      rcases Policy.stands_concat.1 hi with ⟨hi, he⟩ | ⟨rfl, he, -⟩
      · rw [numberAt_concat (Nat.le_of_lt hi.lt)] at hs
        exact .inl ⟨⟨i, hi, hs⟩, he⟩
      · rw [hnow] at hs
        exact .inr ⟨he, hs⟩

/-- A tenant's policies have different ids. -/
theorem nodup_ids (es : List PolicyEdit) (tenant : TenantId) :
    (((after es).list tenant).map (·.id)).Nodup := by
  unfold PolicyStore.list
  rw [List.map_map, List.nodup_iff_pairwise_ne, List.pairwise_map]
  refine List.Pairwise.imp_of_mem ?_ ((after_apart es).filter _)
  intro s s' hs hs' happart hid
  have htenant : s.policy.tenant = tenant := of_decide_eq_true (List.mem_filter.1 hs).2
  have htenant' : s'.policy.tenant = tenant := of_decide_eq_true (List.mem_filter.1 hs').2
  exact happart ⟨htenant.trans htenant'.symm, hid⟩

end PolicyStore

end AccessControl
