import AccessControl.Order.Keyed

/-!
# Sets in key order

A finite set kept as the list of its members in key order, so that two sets with the same members
are equal and listing one gives the order in which it is shown.
-/

namespace AccessControl

/-- A finite set, listed in key order. -/
structure SortedSet (α : Type) [Keyed α] where
  toList : List α
  sorted : SortedBy key toList

namespace SortedSet

variable {α : Type} [Keyed α]

def empty : SortedSet α := ⟨[], .nil⟩

instance : Inhabited (SortedSet α) := ⟨empty⟩
instance : EmptyCollection (SortedSet α) := ⟨empty⟩

instance : Membership α (SortedSet α) := ⟨fun s a => a ∈ s.toList⟩

instance [DecidableEq α] : DecidableEq (SortedSet α) := fun s t =>
  decidable_of_iff (s.toList = t.toList)
    ⟨fun h => by cases s; cases t; cases h; rfl, fun h => h ▸ rfl⟩

instance [DecidableEq α] (a : α) (s : SortedSet α) : Decidable (a ∈ s) :=
  inferInstanceAs (Decidable (a ∈ s.toList))

def insert (s : SortedSet α) (a : α) : SortedSet α :=
  ⟨insertBy key a s.toList, insertBy_sorted s.sorted⟩

def insertMany (s : SortedSet α) (l : List α) : SortedSet α := l.foldl insert s

def ofList (l : List α) : SortedSet α := empty.insertMany l

def filter (p : α → Bool) (s : SortedSet α) : SortedSet α := ⟨s.toList.filter p, s.sorted.filter p⟩

def erase [DecidableEq α] (s : SortedSet α) (a : α) : SortedSet α := s.filter (· ≠ a)

def size (s : SortedSet α) : Nat := s.toList.length

@[simp] theorem mem_toList {a : α} {s : SortedSet α} : a ∈ s.toList ↔ a ∈ s := .rfl

@[simp] theorem not_mem_empty {a : α} : a ∉ (empty : SortedSet α) := List.not_mem_nil

@[simp] theorem mem_insert {a b : α} {s : SortedSet α} : b ∈ s.insert a ↔ b = a ∨ b ∈ s := by
  show b ∈ insertBy key a s.toList ↔ _
  rw [mem_insertBy s.sorted]
  by_cases h : b = a
  · simp [h]
  · have : key b ≠ key a := fun hk => h (Keyed.key_inj hk)
    simp [h, this]

@[simp] theorem mem_insertMany {b : α} {l : List α} {s : SortedSet α} :
    b ∈ s.insertMany l ↔ b ∈ l ∨ b ∈ s := by
  induction l generalizing s with
  | nil => simp [insertMany]
  | cons a l ih =>
    show b ∈ (s.insert a).insertMany l ↔ _
    rw [ih, mem_insert, List.mem_cons, or_left_comm, or_assoc]

@[simp] theorem mem_ofList {b : α} {l : List α} : b ∈ ofList l ↔ b ∈ l := by simp [ofList]

@[simp] theorem mem_filter {b : α} {p : α → Bool} {s : SortedSet α} :
    b ∈ s.filter p ↔ b ∈ s ∧ p b := List.mem_filter

@[simp] theorem mem_erase [DecidableEq α] {a b : α} {s : SortedSet α} :
    b ∈ s.erase a ↔ b ∈ s ∧ b ≠ a := by simp [erase]

theorem ext {s t : SortedSet α} (h : ∀ a, a ∈ s ↔ a ∈ t) : s = t := by
  obtain ⟨l, hl⟩ := s
  obtain ⟨l', hl'⟩ := t
  obtain rfl : l = l' := hl.ext hl' h
  rfl

/-- What is not looked at may be added. -/
theorem filter_insert {s : SortedSet α} {a : α} {p : α → Bool} (h : p a = false) :
    (s.insert a).filter p = s.filter p := by
  refine ext fun b => ?_
  rw [mem_filter, mem_filter, mem_insert]
  refine and_congr_left fun hb => or_iff_right ?_
  rintro rfl
  rw [h] at hb
  cases hb

theorem filter_insertMany {s : SortedSet α} {l : List α} {p : α → Bool}
    (h : ∀ a ∈ l, p a = false) : (s.insertMany l).filter p = s.filter p := by
  induction l generalizing s with
  | nil => rfl
  | cons a l ih =>
    have hrest := ih (s := s.insert a) fun b hb => h b (List.mem_cons_of_mem _ hb)
    exact hrest.trans (filter_insert (h a (List.mem_cons_self ..)))

/-- What is not looked at may be taken out. -/
theorem filter_erase [DecidableEq α] {s : SortedSet α} {a : α} {p : α → Bool} (h : p a = false) :
    (s.erase a).filter p = s.filter p := by
  refine ext fun b => ?_
  rw [mem_filter, mem_filter, mem_erase]
  refine and_congr_left fun hb => and_iff_left ?_
  rintro rfl
  rw [h] at hb
  cases hb

end SortedSet

end AccessControl
