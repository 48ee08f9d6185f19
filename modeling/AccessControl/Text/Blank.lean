/-!
# Blank text

The characters with the Unicode property White_Space, and what trimming them off both ends of a
text means: what is left is the text between white space that has none at its own ends
(`trim_eq_iff`). Every "must not be blank" test of the library is `Text.isBlank`.
-/

namespace AccessControl.Text

/-- The Unicode property White_Space. -/
def isSpace (c : Char) : Bool :=
  let n := c.toNat
  (0x9 ≤ n && n ≤ 0xD) || n == 0x20 || n == 0x85 || n == 0xA0 || n == 0x1680 ||
    (0x2000 ≤ n && n ≤ 0x200A) || n == 0x2028 || n == 0x2029 || n == 0x202F || n == 0x205F ||
    n == 0x3000

def trimStart (s : List Char) : List Char := s.dropWhile isSpace

def trimEnd (s : List Char) : List Char := (s.reverse.dropWhile isSpace).reverse

/-- Without the white space at either end. -/
def trim (s : String) : String := String.ofList (trimEnd (trimStart s.toList))

def isBlank (s : String) : Bool := s.toList.all isSpace

theorem trimEnd_append_of_space {s : List Char} {w : List Char} (hw : w.all isSpace) :
    trimEnd (s ++ w) = trimEnd s := by
  unfold trimEnd
  rw [List.reverse_append, List.dropWhile_append_of_pos]
  intro c hc
  exact List.all_eq_true.1 hw c (List.mem_reverse.1 hc)

/-- No white space at either end. -/
structure Trimmed (s : List Char) : Prop where
  head : ∀ c ∈ s.head?, isSpace c = false
  last : ∀ c ∈ s.getLast?, isSpace c = false

theorem Trimmed.of_no_space {s : List Char} (h : ∀ c ∈ s, isSpace c = false) : Trimmed s where
  head c hc := h c (List.mem_of_mem_head? hc)
  last c hc := h c (List.mem_of_mem_getLast? hc)

theorem trimStart_append_of_space {w : List Char} (hw : w.all isSpace) (s : List Char) :
    trimStart (w ++ s) = trimStart s :=
  List.dropWhile_append_of_pos fun c hc => List.all_eq_true.1 hw c hc

theorem trimStart_of_head {s : List Char} (h : ∀ c ∈ s.head?, isSpace c = false) :
    trimStart s = s := by
  cases s with
  | nil => rfl
  | cons c s => exact List.dropWhile_cons_of_neg (by simp [h c rfl])

theorem trimEnd_of_last {s : List Char} (h : ∀ c ∈ s.getLast?, isSpace c = false) :
    trimEnd s = s := by
  have hstart : trimStart s.reverse = s.reverse := trimStart_of_head (by rwa [List.head?_reverse])
  rw [trimStart] at hstart
  rw [trimEnd, hstart, List.reverse_reverse]

theorem exists_trimStart (s : List Char) : ∃ w, w.all isSpace ∧ s = w ++ trimStart s :=
  ⟨s.takeWhile isSpace, List.all_takeWhile, List.takeWhile_append_dropWhile.symm⟩

theorem exists_trimEnd (s : List Char) : ∃ w, w.all isSpace ∧ s = trimEnd s ++ w := by
  obtain ⟨w, hw, hs⟩ := exists_trimStart s.reverse
  refine ⟨w.reverse, by rwa [List.all_reverse], ?_⟩
  have hrev := congrArg List.reverse hs
  rwa [List.reverse_reverse, List.reverse_append] at hrev

theorem head_trimStart (s : List Char) : ∀ c ∈ (trimStart s).head?, isSpace c = false := by
  intro c hc
  have hnot := List.head?_dropWhile_not isSpace s
  rw [trimStart] at hc
  rwa [hc] at hnot

theorem last_trimEnd (s : List Char) : ∀ c ∈ (trimEnd s).getLast?, isSpace c = false := by
  rw [trimEnd, List.getLast?_reverse]
  exact head_trimStart s.reverse

theorem trimmed_trim (s : List Char) : Trimmed (trimEnd (trimStart s)) where
  head c hc := by
    -- what is left at the front is left after the end has been cut off as well
    obtain ⟨w, -, hw⟩ := exists_trimEnd (trimStart s)
    refine head_trimStart s c ?_
    rw [hw, List.head?_append, hc]
    rfl
  last := last_trimEnd _

theorem trim_eq_iff {s t : List Char} :
    trimEnd (trimStart s) = t ↔
      Trimmed t ∧ ∃ u v, u.all isSpace ∧ v.all isSpace ∧ s = u ++ t ++ v := by
  constructor
  · rintro rfl
    obtain ⟨u, hu, hs⟩ := exists_trimStart s
    obtain ⟨v, hv, hs'⟩ := exists_trimEnd (trimStart s)
    exact ⟨trimmed_trim s, u, v, hu, hv, by rw [List.append_assoc, ← hs', ← hs]⟩
  · rintro ⟨ht, u, v, hu, hv, rfl⟩
    rw [List.append_assoc, trimStart_append_of_space hu]
    cases t with
    | nil =>
      have hnil : trimStart v = trimStart [] := by simpa using trimStart_append_of_space hv []
      rw [List.nil_append, hnil]
      rfl
    | cons c t =>
      have hstart : trimStart (c :: t ++ v) = c :: t ++ v := trimStart_of_head ht.head
      rw [hstart, trimEnd_append_of_space hv, trimEnd_of_last ht.last]

end AccessControl.Text
