/-!
# Values ordered by a key

A `Keyed` type tells its values apart by a list of texts and orders them by it, text by text and
each text by code point. `insertBy` places a value in a list kept in that order; what it keeps is
the order (`insertBy_sorted`) and the members (`mem_insertBy`).
-/

namespace AccessControl

/-- Values told apart, and ordered, by a list of texts. -/
class Keyed (α : Type) where
  key : α → List String
  key_inj : ∀ {a b : α}, key a = key b → a = b

export Keyed (key)

instance : Keyed String where
  key s := [s]
  key_inj h := by simpa using h

theorem key_injective {α : Type} [Keyed α] {a b : α} : key a = key b ↔ a = b :=
  ⟨Keyed.key_inj, fun h => h ▸ rfl⟩

section

variable {β : Type} (f : β → List String)

/-- Places `x` in a list kept in strictly increasing order of `f`, in the place of the element
with the same key if there is one. -/
def insertBy (x : β) : List β → List β
  | [] => [x]
  | y :: ys =>
    if f x < f y then x :: y :: ys
    else if f y < f x then y :: insertBy x ys
    else x :: ys

abbrev SortedBy (l : List β) : Prop := l.Pairwise fun a b => f a < f b

variable {f}

theorem eq_of_not_lt {a b : List String} (h₁ : ¬a < b) (h₂ : ¬b < a) : a = b := by
  rcases Std.lt_trichotomy a b with h | h | h
  · exact absurd h h₁
  · exact h
  · exact absurd h h₂

theorem mem_insertBy {x z : β} {l : List β} (hl : SortedBy f l) :
    z ∈ insertBy f x l ↔ z = x ∨ (z ∈ l ∧ f z ≠ f x) := by
  induction l with
  | nil => simp [insertBy]
  | cons y ys ih =>
    have hys := (List.pairwise_cons.1 hl).2
    have hy := (List.pairwise_cons.1 hl).1
    rw [insertBy]
    split
    · next hlt =>
      constructor
      · intro h
        rcases List.mem_cons.1 h with rfl | h
        · exact .inl rfl
        · refine .inr ⟨h, fun he => ?_⟩
          rcases List.mem_cons.1 h with rfl | h
          · exact List.lt_irrefl _ (he ▸ hlt)
          · exact List.lt_irrefl _ (he ▸ List.lt_trans hlt (hy _ h))
      · rintro (rfl | ⟨h, -⟩)
        · simp
        · exact List.mem_cons_of_mem _ h
    · next h₁ =>
      split
      · next h₂ =>
        rw [List.mem_cons, ih hys, List.mem_cons]
        constructor
        · rintro (rfl | rfl | ⟨h, hne⟩)
          · exact .inr ⟨.inl rfl, fun he => List.lt_irrefl _ (he ▸ h₂)⟩
          · exact .inl rfl
          · exact .inr ⟨.inr h, hne⟩
        · rintro (rfl | ⟨rfl | h, hne⟩)
          · exact .inr (.inl rfl)
          · exact .inl rfl
          · exact .inr (.inr ⟨h, hne⟩)
      · next h₂ =>
        have hxy := eq_of_not_lt h₁ h₂
        rw [List.mem_cons, List.mem_cons]
        constructor
        · rintro (rfl | h)
          · exact .inl rfl
          · exact .inr ⟨.inr h, fun he => List.lt_irrefl _ (hxy ▸ he ▸ hy _ h)⟩
        · rintro (rfl | ⟨rfl | h, hne⟩)
          · exact .inl rfl
          · exact absurd hxy.symm hne
          · exact .inr h

theorem insertBy_sorted {x : β} {l : List β} (hl : SortedBy f l) : SortedBy f (insertBy f x l) := by
  induction l with
  | nil => simp [insertBy]
  | cons y ys ih =>
    have hys := (List.pairwise_cons.1 hl).2
    have hy := (List.pairwise_cons.1 hl).1
    rw [insertBy]
    split
    · next hlt =>
      refine List.pairwise_cons.2 ⟨fun z hz => ?_, hl⟩
      rcases List.mem_cons.1 hz with rfl | hz
      · exact hlt
      · exact List.lt_trans hlt (hy z hz)
    · next h₁ =>
      split
      · next h₂ =>
        refine List.pairwise_cons.2 ⟨fun z hz => ?_, ih hys⟩
        rcases (mem_insertBy hys).1 hz with rfl | ⟨hz, -⟩
        · exact h₂
        · exact hy z hz
      · next h₂ =>
        have hxy := eq_of_not_lt h₁ h₂
        exact List.pairwise_cons.2 ⟨fun z hz => hxy ▸ hy z hz, hys⟩

/-- What comes last in order is placed at the end. -/
theorem insertBy_of_forall_lt {x : β} {l : List β} (h : ∀ y ∈ l, f y < f x) :
    insertBy f x l = l ++ [x] := by
  induction l with
  | nil => rfl
  | cons y ys ih =>
    have hy : f y < f x := h y List.mem_cons_self
    have hx : ¬f x < f y := fun hlt => List.lt_irrefl _ (List.lt_trans hy hlt)
    rw [insertBy, if_neg hx, if_pos hy, ih fun z hz => h z (List.mem_cons_of_mem _ hz)]
    rfl

/-- Two lists in the same strict order with the same members are equal. -/
theorem SortedBy.ext {l l' : List β} (h : SortedBy f l) (h' : SortedBy f l')
    (hmem : ∀ x, x ∈ l ↔ x ∈ l') : l = l' := by
  induction l generalizing l' with
  | nil =>
    cases l' with
    | nil => rfl
    | cons y ys => exact absurd ((hmem y).2 (by simp)) (by simp)
  | cons x xs ih =>
    cases l' with
    | nil => exact absurd ((hmem x).1 (by simp)) (by simp)
    | cons y ys =>
      obtain ⟨hx, hxs⟩ := List.pairwise_cons.1 h
      obtain ⟨hy, hys⟩ := List.pairwise_cons.1 h'
      have hxy : x = y := by
        rcases List.mem_cons.1 ((hmem x).1 (by simp)) with he | hin
        · exact he
        · rcases List.mem_cons.1 ((hmem y).2 (by simp)) with he | hin'
          · exact he.symm
          · exact absurd (List.lt_trans (hy x hin) (hx y hin')) (List.lt_irrefl _)
      subst hxy
      refine congrArg (x :: ·) (ih hxs hys fun z => ?_)
      constructor
      · intro hz
        rcases List.mem_cons.1 ((hmem z).1 (List.mem_cons_of_mem _ hz)) with rfl | h
        · exact absurd (hx z hz) (List.lt_irrefl _)
        · exact h
      · intro hz
        rcases List.mem_cons.1 ((hmem z).2 (List.mem_cons_of_mem _ hz)) with rfl | h
        · exact absurd (hy z hz) (List.lt_irrefl _)
        · exact h

/-- What is found first in a list in strict order is the least. -/
theorem SortedBy.find?_eq_some_iff {l : List β} (h : SortedBy f l) {p : β → Bool} {x : β} :
    l.find? p = some x ↔ x ∈ l ∧ p x = true ∧ ∀ y ∈ l, p y = true → y = x ∨ f x < f y := by
  have hfirst {z : β} (hz : l.find? p = some z) : ∀ y ∈ l, p y = true → y = z ∨ f z < f y := by
    intro y hy hpy
    obtain ⟨-, before, rest, rfl, hbefore⟩ := List.find?_eq_some_iff_append.1 hz
    rcases List.mem_append.1 hy with hy | hy
    · have hnot := hbefore y hy
      rw [hpy] at hnot
      cases hnot
    · rcases List.mem_cons.1 hy with rfl | hy
      · exact .inl rfl
      · exact .inr ((List.pairwise_cons.1 (List.pairwise_append.1 h).2.1).1 y hy)
  constructor
  · intro hx
    exact ⟨List.mem_of_find?_eq_some hx, List.find?_some hx, hfirst hx⟩
  · rintro ⟨hx, hpx, hleast⟩
    obtain ⟨z, hz⟩ := Option.isSome_iff_exists.1 (List.find?_isSome.2 ⟨x, hx, hpx⟩)
    rcases hfirst hz x hx hpx with rfl | hzx
    · exact hz
    · rcases hleast z (List.mem_of_find?_eq_some hz) (List.find?_some hz) with rfl | hxz
      · exact hz
      · exact absurd (List.lt_trans hzx hxz) (List.lt_irrefl _)

end

end AccessControl
