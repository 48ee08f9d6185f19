import AccessControl.Proofs.Order.Size
import AccessControl.Token.Backend
import Mathlib.Order.Bounds.Defs

/-!
# Naming tokens to the revocation list again

Identifiers may be added any number of times and in any order. Each is remembered until the latest of
the times that were given for it (`RevocationList.expiry?_addAll`), whatever the order, and of the
calls only the first that names an identifier not yet on the list is told that it is new
(`RevocationList.getElem?_addAll`).
-/

namespace AccessControl
namespace RevocationList

variable {l : RevocationList} {adds adds' : List (TokenId × Instant)} {id : TokenId} {t u : Instant}

/-- Adds identifiers one after the other; what each call is told, and the list after all. -/
def addAll (l : RevocationList) : List (TokenId × Instant) → List Bool × RevocationList
  | [] => ([], l)
  | (id, t) :: adds =>
    let (news, l') := (l.add id t).2.addAll adds
    ((l.add id t).1 :: news, l')

/-- The times that are given for an identifier, by the list and by further calls. -/
def times (l : RevocationList) (adds : List (TokenId × Instant)) (id : TokenId) : Set Instant :=
  {t | l.expiry? id = some t ∨ (id, t) ∈ adds}

/-! ### The list after the calls -/

/-- One call leaves an identifier the time it had, or the one that the call gives. -/
theorem expiry?_of_add {id' : TokenId} {t' : Instant} (h : (l.add id' t').2.expiry? id = some t) :
    l.expiry? id = some t ∨ (id, t) = (id', t') := by
  rw [expiry?_add] at h
  split at h
  next hid =>
    subst hid
    cases hbefore : l.expiry? id with
    | none =>
      rw [hbefore] at h
      exact .inr (congrArg (id, ·) (Option.some.inj h).symm)
    | some u =>
      rw [hbefore] at h
      have hlatest : u.latest t' = t := Option.some.inj h
      rcases u.latest_eq_or t' with hold | hnew
      · exact .inl (congrArg some (hold.symm.trans hlatest))
      · exact .inr (congrArg (id, ·) (hlatest.symm.trans hnew))
  · exact .inl h

theorem mem_times_of_expiry? (h : (l.addAll adds).2.expiry? id = some t) : t ∈ l.times adds id := by
  induction adds generalizing l with
  | nil => exact .inl h
  | cons a adds ih =>
    rcases ih h with hone | hadd
    · rcases expiry?_of_add hone with hold | hnew
      · exact .inl hold
      · exact .inr (hnew ▸ List.mem_cons_self)
    · exact .inr (List.mem_cons_of_mem _ hadd)

theorem Remembers.addAll (h : l.Remembers id t) (adds : List (TokenId × Instant)) :
    (l.addAll adds).2.Remembers id t := by
  induction adds generalizing l with
  | nil => exact h
  | cons a adds ih => exact ih (h.add a.1 a.2)

theorem remembers_of_mem_times (h : t ∈ l.times adds id) : (l.addAll adds).2.Remembers id t := by
  rcases h with hold | hadd
  · exact Remembers.addAll ⟨t, hold, Instant.le_refl t⟩ adds
  · induction adds generalizing l with
    | nil => cases hadd
    | cons a adds ih =>
      rcases List.mem_cons.1 hadd with rfl | hadd
      · exact (remembers_add l id t).addAll adds
      · exact ih hadd

/-- An identifier is remembered until the latest of the times that were given for it. -/
theorem expiry?_addAll : (l.addAll adds).2.expiry? id = some t ↔ IsGreatest (l.times adds id) t := by
  constructor
  · intro h
    refine ⟨mem_times_of_expiry? h, fun u hu => ?_⟩
    obtain ⟨t', ht', hle⟩ := remembers_of_mem_times hu
    obtain rfl := Option.some.inj (h.symm.trans ht')
    exact hle
  · rintro ⟨hmem, hmax⟩
    obtain ⟨t', ht', hle⟩ := remembers_of_mem_times hmem
    rw [ht', Instant.le_antisymm hle (hmax (mem_times_of_expiry? ht'))]

theorem ext {l l' : RevocationList} (h : ∀ id, l.expiry? id = l'.expiry? id) : l = l' := by
  cases l
  cases l'
  congr
  exact SortedMap.ext h

theorem addAll_perm (h : adds.Perm adds') (l : RevocationList) :
    (l.addAll adds').2 = (l.addAll adds).2 := by
  have htimes : ∀ id, l.times adds' id = l.times adds id := fun id =>
    Set.ext fun t => or_congr_right h.mem_iff.symm
  refine ext fun id => Option.ext fun t => ?_
  rw [expiry?_addAll, expiry?_addAll, htimes]

/-! ### What the calls are told -/

theorem expiry?_add_eq_none {id' : TokenId} :
    (l.add id' t).2.expiry? id = none ↔ id ≠ id' ∧ l.expiry? id = none := by
  rw [expiry?_add]
  split
  next hid => simp [hid]
  next hid => simp [hid]

/-- Every call is answered, and what it is told is that the identifier is new if it was not on the
list and none of the calls before has named it. -/
theorem getElem?_addAll {i : Nat} (h : adds[i]? = some (id, t)) :
    ∃ new, (l.addAll adds).1[i]? = some new ∧
      (new = true ↔ l.expiry? id = none ∧ ∀ j < i, ∀ u, adds[j]? ≠ some (id, u)) := by
  induction adds generalizing l i with
  | nil => cases h
  | cons a adds ih =>
    cases i with
    | zero =>
      obtain rfl := Option.some.inj h
      refine ⟨(l.add id t).1, rfl, ?_⟩
      rw [add_fst, contains_eq]
      simp
    | succ i =>
      obtain ⟨new, hnew, hiff⟩ := ih (l := (l.add a.1 a.2).2) h
      refine ⟨new, hnew, ?_⟩
      rw [hiff, expiry?_add_eq_none, Nat.forall_lt_succ_left]
      have hfirst : (∀ u, (a :: adds)[0]? ≠ some (id, u)) ↔ id ≠ a.1 := by
        constructor
        · rintro hne rfl
          exact hne a.2 rfl
        · intro hne u hu
          exact hne (congrArg Prod.fst (Option.some.inj hu)).symm
      rw [hfirst, and_assoc, and_left_comm]
      rfl

/-! ### Forgetting -/

/-- A clean-up that follows drops the identifiers that need not be remembered any longer, and tells
how many they are. -/
theorem answer_cleanup {b : Backend} (h : b.revocations = l) (now : Instant) :
    ∃ n b', b.answer (.cleanupRevocations now) = (.ok n, b') ∧
      {id | ∃ t, l.expiry? id = some t ∧ t ≤ now}.encard = n ∧
      ∀ id t, b'.revocations.expiry? id = some t ↔ l.expiry? id = some t ∧ now < t := by
  subst h
  refine ⟨_, _, rfl, ?_, fun id t => ?_⟩
  · have hdropped := b.revocations.entries.encard_dropped fun _ t => decide (now < t)
    simp only [decide_eq_false_iff_not, Instant.not_lt] at hdropped
    exact hdropped
  · show (b.revocations.cleanup now).expiry? id = some t ↔ _
    rw [expiry?_cleanup, Option.filter_eq_some_iff, decide_eq_true_iff]

/-- Whatever the list, the order of further calls does not matter for it: every identifier is then
remembered until the latest of the times given for it, which is never earlier than before. Of the
calls for an identifier exactly the first is told that it is new if it was not on the list, and none
if it was. A clean-up after them drops just the identifiers whose latest time has come, and tells
their number. -/
theorem adding_in_any_order (l : RevocationList) (adds : List (TokenId × Instant)) :
    (∀ adds', adds.Perm adds' → (l.addAll adds').2 = (l.addAll adds).2) ∧
    (∀ id t, (l.addAll adds).2.expiry? id = some t ↔ IsGreatest (l.times adds id) t) ∧
    (∀ (i : Nat) id t, adds[i]? = some (id, t) → ∃ new, (l.addAll adds).1[i]? = some new ∧
      (new = true ↔ l.expiry? id = none ∧ ∀ j < i, ∀ u : Instant, adds[j]? ≠ some (id, u))) ∧
    (∀ id t, l.expiry? id = some t → ∃ u, (l.addAll adds).2.expiry? id = some u ∧ t ≤ u) ∧
    ∀ (b : Backend) (now : Instant), b.revocations = (l.addAll adds).2 →
      ∃ n b', b.answer (.cleanupRevocations now) = (.ok n, b') ∧
        {id | ∃ t, IsGreatest (l.times adds id) t ∧ t ≤ now}.encard = n ∧
        ∀ id t, b'.revocations.expiry? id = some t ↔ IsGreatest (l.times adds id) t ∧ now < t := by
  refine ⟨fun adds' h => addAll_perm h l, fun id t => expiry?_addAll,
    fun i id t h => getElem?_addAll h, fun id t h => ?_, fun b now h => ?_⟩
  · exact remembers_of_mem_times (.inl h)
  · simp only [← expiry?_addAll]
    exact answer_cleanup h now

namespace Sample

/-- The identifier `b` is on the list already. -/
def listed : RevocationList := (empty.add ⟨"b"⟩ ⟨4, 0⟩).2

def calls : List (TokenId × Instant) := [(⟨"a"⟩, ⟨5, 0⟩), (⟨"b"⟩, ⟨3, 0⟩), (⟨"a"⟩, ⟨2, 0⟩)]

/-- Asked about the identifiers when the time for `b` has come. -/
def backend : Backend :=
  { Backend.new ⟨4, 0⟩ .counting with revocations := (listed.addAll calls).2 }

theorem named_again :
    calls.Perm calls.reverse ∧ (listed.addAll calls.reverse).2 = (listed.addAll calls).2 ∧
    calls[2]? = some (⟨"a"⟩, ⟨2, 0⟩) ∧ (listed.addAll calls).1[2]? = some false ∧
    listed.expiry? ⟨"b"⟩ = some ⟨4, 0⟩ ∧
    (∃ u, (listed.addAll calls).2.expiry? ⟨"b"⟩ = some u ∧ (⟨4, 0⟩ : Instant) ≤ u) ∧
    backend.revocations = (listed.addAll calls).2 ∧
    ∃ n b', backend.answer (.cleanupRevocations ⟨4, 0⟩) = (.ok n, b') ∧
      {id | ∃ t, IsGreatest (listed.times calls id) t ∧ t ≤ ⟨4, 0⟩}.encard = n ∧
      ∀ id t, b'.revocations.expiry? id = some t ↔
        IsGreatest (listed.times calls id) t ∧ ⟨4, 0⟩ < t := by
  obtain ⟨horder, -, hnew, hkept, hcleanup⟩ := adding_in_any_order listed calls
  have hreverse : calls.Perm calls.reverse := (List.reverse_perm calls).symm
  obtain ⟨new, htold, hiff⟩ := hnew 2 ⟨"a"⟩ ⟨2, 0⟩ rfl
  have hold : new = false := by
    rw [← Bool.not_eq_true]
    intro htrue
    exact (hiff.1 htrue).2 0 (by decide) ⟨5, 0⟩ rfl
  exact ⟨hreverse, horder _ hreverse, rfl, hold ▸ htold, by decide, hkept _ _ (by decide), rfl,
    hcleanup backend ⟨4, 0⟩ rfl⟩

end Sample

end RevocationList
end AccessControl
