import AccessControl.Order.Keyed

/-!
# Maps in key order

A finite map kept as the list of its entries in key order: each key occurs once (`get?_insert`,
`get?_erase`), and two maps with the same look-ups are equal (`ext`).
-/

namespace AccessControl

/-- A finite map, listed in key order. -/
structure SortedMap (κ α : Type) [Keyed κ] where
  toList : List (κ × α)
  sorted : SortedBy (fun e : κ × α => key e.1) toList

namespace SortedMap

variable {κ α β : Type} [Keyed κ]

def empty : SortedMap κ α := ⟨[], .nil⟩

instance : Inhabited (SortedMap κ α) := ⟨empty⟩
instance : EmptyCollection (SortedMap κ α) := ⟨empty⟩

instance [DecidableEq κ] [DecidableEq α] : DecidableEq (SortedMap κ α) := fun s t =>
  decidable_of_iff (s.toList = t.toList)
    ⟨fun h => by cases s; cases t; cases h; rfl, fun h => h ▸ rfl⟩

/-- Adds an entry, in the place of the one under the same key if there is one. -/
def insert (m : SortedMap κ α) (k : κ) (a : α) : SortedMap κ α :=
  ⟨insertBy (fun e => key e.1) (k, a) m.toList, insertBy_sorted m.sorted⟩

/-- Entries in a list; the last one under a key wins. -/
def ofList (l : List (κ × α)) : SortedMap κ α := l.foldl (fun m e => m.insert e.1 e.2) empty

def filter (p : κ → α → Bool) (m : SortedMap κ α) : SortedMap κ α :=
  ⟨m.toList.filter fun e => p e.1 e.2, m.sorted.filter _⟩

def map (f : κ → α → β) (m : SortedMap κ α) : SortedMap κ β :=
  ⟨m.toList.map fun e => (e.1, f e.1 e.2), List.pairwise_map.2 m.sorted⟩

def keys (m : SortedMap κ α) : List κ := m.toList.map (·.1)

def values (m : SortedMap κ α) : List α := m.toList.map (·.2)

def size (m : SortedMap κ α) : Nat := m.toList.length

def isEmpty (m : SortedMap κ α) : Bool := m.toList.isEmpty

variable [DecidableEq κ]

def get? (m : SortedMap κ α) (k : κ) : Option α := (m.toList.find? (·.1 = k)).map (·.2)

def contains (m : SortedMap κ α) (k : κ) : Bool := (m.get? k).isSome

def erase (m : SortedMap κ α) (k : κ) : SortedMap κ α := m.filter fun k' _ => k' ≠ k

omit [DecidableEq κ] in
theorem eq_of_mem {l : List (κ × α)} (hl : SortedBy (fun e : κ × α => key e.1) l) {k : κ} {a b : α}
    (ha : (k, a) ∈ l) (hb : (k, b) ∈ l) : a = b := by
  induction l with
  | nil => cases ha
  | cons e l ih =>
    obtain ⟨he, hl⟩ := List.pairwise_cons.1 hl
    rcases List.mem_cons.1 ha with ha | ha <;> rcases List.mem_cons.1 hb with hb | hb
    · rw [← ha] at hb; exact (congrArg Prod.snd hb).symm
    · exact absurd (he _ hb) (ha ▸ List.lt_irrefl _)
    · exact absurd (he _ ha) (hb ▸ List.lt_irrefl _)
    · exact ih hl ha hb

omit [DecidableEq κ] in
theorem nodup_keys (m : SortedMap κ α) : m.keys.Nodup := by
  refine List.pairwise_map.2 (m.sorted.imp fun {a b} hlt he => ?_)
  simp only [he] at hlt
  exact List.lt_irrefl _ hlt

theorem get?_eq_some {m : SortedMap κ α} {k : κ} {a : α} :
    m.get? k = some a ↔ (k, a) ∈ m.toList := by
  constructor
  · intro h
    obtain ⟨e, he, rfl⟩ := Option.map_eq_some_iff.1 h
    have hk : e.1 = k := by simpa using List.find?_some he
    exact hk ▸ List.mem_of_find?_eq_some he
  · intro h
    cases hf : m.toList.find? (·.1 = k) with
    | none => exact absurd (List.find?_eq_none.1 hf _ h) (by simp)
    | some e =>
      have hk : e.1 = k := by simpa using List.find?_some hf
      have hm := List.mem_of_find?_eq_some hf
      obtain ⟨k', b⟩ := e
      cases hk
      show (m.toList.find? _).map _ = _
      rw [hf]
      exact congrArg some (eq_of_mem m.sorted hm h)

@[simp] theorem get?_empty {k : κ} : (empty : SortedMap κ α).get? k = none := rfl

theorem ext {m m' : SortedMap κ α} (h : ∀ k, m.get? k = m'.get? k) : m = m' := by
  have hl : m.toList = m'.toList := m.sorted.ext m'.sorted fun ⟨k, a⟩ => by
    rw [← get?_eq_some, ← get?_eq_some, h]
  cases m; cases m'; cases hl; rfl

omit [DecidableEq κ] in
theorem toList_foldl_insert {l : List (κ × α)} {m : SortedMap κ α}
    (h : SortedBy (fun e : κ × α => key e.1) (m.toList ++ l)) :
    (l.foldl (fun m e => m.insert e.1 e.2) m).toList = m.toList ++ l := by
  induction l generalizing m with
  | nil => simp
  | cons e l ih =>
    have hinsert : (m.insert e.1 e.2).toList = m.toList ++ [e] :=
      insertBy_of_forall_lt fun y hy => (List.pairwise_append.1 h).2.2 y hy e List.mem_cons_self
    rw [List.foldl_cons, ih (by simpa [hinsert] using h), hinsert, List.append_assoc]
    rfl

omit [DecidableEq κ] in
@[simp] theorem ofList_toList (m : SortedMap κ α) : ofList m.toList = m := by
  have h : (ofList m.toList).toList = m.toList := toList_foldl_insert m.sorted
  generalize ofList m.toList = m' at h ⊢
  cases m; cases m'; cases h; rfl

omit [DecidableEq κ] in
theorem mem_insert {m : SortedMap κ α} {k k' : κ} {a b : α} :
    (k', b) ∈ (m.insert k a).toList ↔ (k' = k ∧ b = a) ∨ (k' ≠ k ∧ (k', b) ∈ m.toList) := by
  show (k', b) ∈ insertBy (fun e : κ × α => key e.1) (k, a) m.toList ↔ _
  rw [mem_insertBy m.sorted]
  simp only [Prod.mk.injEq, ne_eq, key_injective]
  rw [and_comm (a := ¬k' = k)]

@[simp] theorem get?_insert (m : SortedMap κ α) (k k' : κ) (a : α) :
    (m.insert k a).get? k' = if k' = k then some a else m.get? k' := by
  apply Option.ext
  intro b
  rw [get?_eq_some, mem_insert]
  split
  · next h => simp [h, eq_comm]
  · next h => simp [h, get?_eq_some]

@[simp] theorem get?_filter (m : SortedMap κ α) (p : κ → α → Bool) (k : κ) :
    (m.filter p).get? k = (m.get? k).filter (p k) := by
  apply Option.ext
  intro b
  rw [get?_eq_some, Option.filter_eq_some_iff, get?_eq_some]
  exact List.mem_filter

@[simp] theorem get?_erase (m : SortedMap κ α) (k k' : κ) :
    (m.erase k).get? k' = if k' = k then none else m.get? k' := by
  rw [erase, get?_filter]
  split
  · next h => cases m.get? k' <;> simp [h]
  · next h => cases m.get? k' <;> simp [h]

theorem get?_filter_of_pos {m : SortedMap κ α} {k : κ} {p : κ → α → Bool} (h : ∀ a, p k a = true) :
    (m.filter p).get? k = m.get? k := by
  rw [get?_filter]
  cases m.get? k <;> simp [Option.filter, h]

/-- An entry that is not looked at may be put. -/
theorem filter_insert {m : SortedMap κ α} {k : κ} {a : α} {p : κ → α → Bool}
    (h : ∀ b, p k b = false) : (m.insert k a).filter p = m.filter p := by
  refine ext fun k' => ?_
  rw [get?_filter, get?_filter, get?_insert]
  split
  next hk =>
    subst hk
    cases m.get? k' <;> simp [Option.filter, h]
  · rfl

/-- Entries that are not looked at may be dropped. -/
theorem filter_filter_of_imp {m : SortedMap κ α} {p q : κ → α → Bool}
    (h : ∀ k a, p k a = true → q k a = true) : (m.filter q).filter p = m.filter p := by
  refine ext fun k => ?_
  rw [get?_filter, get?_filter, get?_filter]
  cases m.get? k with
  | none => rfl
  | some a =>
    by_cases hp : p k a = true
    · simp [Option.filter, hp, h k a hp]
    · by_cases hq : q k a = true <;> simp [Option.filter, hp, hq]

end SortedMap

end AccessControl
