/-!
# Cutting a text at a character

`cut` cuts at the first place where a character stands, `split` at every place. `join` undoes
`split` (`join_split`), so texts with the same pieces are equal (`splitString_inj`). No piece holds
the character (`not_mem_of_mem_split`), and all lists of such pieces occur (`split_join`). Texts with
the character between them have the pieces of both (`splitString_append`).
-/

namespace AccessControl.Text

/-- What stands before the first `c`, and what stands after it if there is one. -/
def cut (c : Char) : List Char → List Char × Option (List Char)
  | [] => ([], none)
  | x :: xs => if x = c then ([], some xs) else (x :: (cut c xs).1, (cut c xs).2)

/-- What stands before the last `c`, and what stands after it. -/
def cutLast? (c : Char) (s : List Char) : Option (List Char × List Char) :=
  let (after, before) := cut c s.reverse
  before.map fun b => (b.reverse, after.reverse)

/-- The pieces between the places where `c` stands; there is always one. -/
def split (c : Char) : List Char → List (List Char)
  | [] => [[]]
  | x :: xs =>
    if x = c then [] :: split c xs
    else match split c xs with
      | [] => [[x]]
      | p :: ps => (x :: p) :: ps

/-- The pieces with `c` between them. -/
def join (c : Char) : List (List Char) → List Char
  | [] => []
  | [p] => p
  | p :: q :: ps => p ++ c :: join c (q :: ps)

def cutString (c : Char) (s : String) : String × Option String :=
  (String.ofList (cut c s.toList).1, (cut c s.toList).2.map String.ofList)

def splitString (c : Char) (s : String) : List String := (split c s.toList).map String.ofList

def joinStrings (sep : String) : List String → String
  | [] => ""
  | [s] => s
  | s :: t :: ts => s ++ sep ++ joinStrings sep (t :: ts)

theorem split_ne_nil (c : Char) (s : List Char) : split c s ≠ [] := by
  cases s with
  | nil => simp [split]
  | cons x xs =>
    rw [split]
    split
    · simp
    · split <;> simp

theorem join_split (c : Char) (s : List Char) : join c (split c s) = s := by
  induction s with
  | nil => rfl
  | cons x xs ih =>
    rw [split]
    cases h : split c xs with
    | nil => exact absurd h (split_ne_nil c xs)
    | cons p ps =>
      rw [h] at ih
      split
      · next hx => subst hx; simp [join, ih]
      · cases ps with
        | nil => simpa [join] using ih
        | cons q qs => simpa [join] using ih

theorem not_mem_of_mem_split {c : Char} {s p : List Char} (h : p ∈ split c s) : c ∉ p := by
  induction s generalizing p with
  | nil => simp_all [split]
  | cons x xs ih =>
    rw [split] at h
    split at h
    · rcases List.mem_cons.1 h with rfl | h
      · simp
      · exact ih h
    · next hx =>
      split at h
      · simp only [List.mem_singleton] at h; subst h; simpa using fun hc => hx hc.symm
      · next q qs hs =>
        rcases List.mem_cons.1 h with rfl | h
        · intro hc
          rcases List.mem_cons.1 hc with rfl | hc
          · exact hx rfl
          · exact ih (hs ▸ List.mem_cons_self) hc
        · exact ih (hs ▸ List.mem_cons_of_mem _ h)

theorem split_append (c : Char) (s t : List Char) : split c (s ++ c :: t) = split c s ++ split c t := by
  induction s with
  | nil => simp [split]
  | cons x xs ih =>
    rw [List.cons_append, split, split, ih]
    cases h : split c xs with
    | nil => exact absurd h (split_ne_nil c xs)
    | cons p ps => split <;> rfl

theorem split_of_not_mem {c : Char} {s : List Char} (h : c ∉ s) : split c s = [s] := by
  induction s with
  | nil => rfl
  | cons x xs ih =>
    obtain ⟨hx, hxs⟩ := not_or.1 (mt List.mem_cons.2 h)
    rw [split, if_neg (Ne.symm hx), ih hxs]

/-- A text in which the character stands has more than one piece. -/
theorem exists_split_of_mem {c : Char} {s : List Char} (h : c ∈ s) :
    ∃ p q ps, split c s = p :: q :: ps := by
  induction s with
  | nil => cases h
  | cons x xs ih =>
    by_cases hx : x = c
    · obtain ⟨q, ps, hps⟩ := List.exists_cons_of_ne_nil (split_ne_nil c xs)
      exact ⟨[], q, ps, by rw [split, if_pos hx, hps]⟩
    · obtain ⟨p, q, ps, hps⟩ := ih ((List.mem_cons.1 h).resolve_left (Ne.symm hx))
      exact ⟨x :: p, q, ps, by rw [split, if_neg hx, hps]⟩

/-- `split` undoes `join` where no piece holds the character. -/
theorem split_join {c : Char} {ps : List (List Char)} (hne : ps ≠ []) (h : ∀ p ∈ ps, c ∉ p) :
    split c (join c ps) = ps := by
  induction ps with
  | nil => exact absurd rfl hne
  | cons p ps ih =>
    obtain ⟨hp, hps⟩ := List.forall_mem_cons.1 h
    cases ps with
    | nil => exact split_of_not_mem hp
    | cons q qs =>
      rw [join, split_append, split_of_not_mem hp, ih (List.cons_ne_nil q qs) hps]
      rfl

theorem splitString_inj {c : Char} {s t : String} (h : splitString c s = splitString c t) : s = t := by
  have hchars : split c s.toList = split c t.toList :=
    (List.map_inj_right fun _ _ he => by simpa using congrArg String.toList he).1 h
  have hjoin := congrArg (join c) hchars
  rw [join_split, join_split] at hjoin
  exact String.toList_inj.1 hjoin

theorem splitString_append (c : Char) (s t : String) :
    splitString c (s ++ String.singleton c ++ t) = splitString c s ++ splitString c t := by
  simp [splitString, split_append]

theorem splitString_of_not_mem {c : Char} {s : String} (h : c ∉ s.toList) : splitString c s = [s] := by
  simp [splitString, split_of_not_mem h]

theorem exists_splitString_of_mem {c : Char} {s : String} (h : c ∈ s.toList) :
    ∃ p q ps, splitString c s = p :: q :: ps := by
  obtain ⟨p, q, ps, hps⟩ := exists_split_of_mem h
  exact ⟨_, _, _, by rw [splitString, hps]; rfl⟩

theorem not_mem_of_mem_splitString {c : Char} {s p : String} (h : p ∈ splitString c s) :
    c ∉ p.toList := by
  obtain ⟨q, hq, rfl⟩ := List.mem_map.1 h
  rw [String.toList_ofList]
  exact not_mem_of_mem_split hq

theorem eq_of_cut {c : Char} {s t : List Char} (h : (cut c s).2 = some t) :
    s = (cut c s).1 ++ c :: t := by
  induction s with
  | nil => simp [cut] at h
  | cons x xs ih =>
    rw [cut] at h ⊢
    split at h
    · next hx => simp_all
    · next hx => simpa [hx] using ih h

theorem not_mem_cut_fst {c : Char} {s : List Char} : c ∉ (cut c s).1 := by
  induction s with
  | nil => simp [cut]
  | cons x xs ih =>
    rw [cut]
    split
    · simp
    · next h => simpa [ih] using Ne.symm h

theorem cut_append {c : Char} {s t : List Char} (h : c ∉ s) : cut c (s ++ c :: t) = (s, some t) := by
  induction s with
  | nil => simp [cut]
  | cons x s ih =>
    obtain ⟨hx, hs⟩ := not_or.1 (mt List.mem_cons.2 h)
    simp [cut, Ne.symm hx, ih hs]

theorem cutLast?_append {c : Char} {s t : List Char} (h : c ∉ t) :
    cutLast? c (s ++ c :: t) = some (s, t) := by
  have hr : (s ++ c :: t).reverse = t.reverse ++ c :: s.reverse := by simp
  simp [cutLast?, hr, cut_append (s := t.reverse) (t := s.reverse) (by simpa using h)]

theorem eq_of_cutLast? {c : Char} {s a b : List Char} (h : cutLast? c s = some (a, b)) :
    s = a ++ c :: b ∧ c ∉ b := by
  obtain ⟨r, hr, he⟩ := Option.map_eq_some_iff.1 h
  obtain ⟨rfl, rfl⟩ := Prod.mk.inj he
  refine ⟨?_, by simpa using not_mem_cut_fst⟩
  have hs := congrArg List.reverse (eq_of_cut hr)
  simpa using hs

end AccessControl.Text
