import AccessControl.Bearer
import Mathlib.Data.List.Forall2

/-!
# Headers with bearer credentials

The grammar of the header as a relation (`Carries`): the scheme in letters of either case, a blank
and the token, with white space around the two and more of it before the token. Reading a header
gives a token exactly if the header carries it (`value?_eq_some_iff`), so no header carries two.
-/

namespace AccessControl

/-! ### Letters of either case -/

namespace Letter

variable {x c : Char}

theorem toNat_toLower (x : Char) :
    x.toLower.toNat = if 65 ≤ x.toNat ∧ x.toNat ≤ 90 then x.toNat + 32 else x.toNat := by
  have hrange : (x.val ≥ 'A'.val ∧ x.val ≤ 'Z'.val) ↔ 65 ≤ x.toNat ∧ x.toNat ≤ 90 := .rfl
  unfold Char.toLower
  split
  next h =>
    rw [if_pos (hrange.1 h)]
    show (x.val + 32).toNat = x.val.toNat + 32
    have hle : x.val.toNat ≤ 90 := h.2
    rw [UInt32.toNat_add]
    show (x.val.toNat + 32) % 4294967296 = x.val.toNat + 32
    omega
  next h => rw [if_neg (mt hrange.2 h)]

theorem toNat_toUpper (x : Char) :
    x.toUpper.toNat = if 97 ≤ x.toNat ∧ x.toNat ≤ 122 then x.toNat - 32 else x.toNat := by
  have hrange : ('a'.val ≤ x.val ∧ x.val ≤ 'z'.val) ↔ 97 ≤ x.toNat ∧ x.toNat ≤ 122 := .rfl
  unfold Char.toUpper
  split
  next h =>
    rw [if_pos (hrange.1 h)]
    -- words have no subtraction here: the sum wraps around
    show (x.val + 4294967264).toNat = x.val.toNat - 32
    obtain ⟨hge, hle⟩ : 97 ≤ x.val.toNat ∧ x.val.toNat ≤ 122 := h
    rw [UInt32.toNat_add]
    show (x.val.toNat + 4294967264) % 4294967296 = x.val.toNat - 32
    omega
  next h => rw [if_neg (mt hrange.2 h)]

theorem toLower_eq_iff (hc : 97 ≤ c.toNat ∧ c.toNat ≤ 122) :
    x.toLower = c ↔ x = c ∨ x = c.toUpper := by
  rw [← Char.toNat_inj, ← Char.toNat_inj, ← Char.toNat_inj, toNat_toLower, toNat_toUpper, if_pos hc]
  split <;> omega

end Letter

namespace Bearer

variable {h t : String} {s : List Char} {c : Char}

/-- The letters of the scheme, each of them small or capital. -/
def NamesScheme (s : List Char) : Prop :=
  List.Forall₂ (fun x c => x = c ∨ x = c.toUpper) s scheme

/-- What can be carried: a text that is not empty and has no white space. -/
structure IsToken (t : String) : Prop where
  ne_empty : t ≠ ""
  no_space : ∀ c ∈ t.toList, Text.isSpace c = false

/-- White space, the scheme, a blank, white space, the token, white space. -/
def Carries (h t : String) : Prop :=
  ∃ before name gap after : String, h = before ++ name ++ " " ++ gap ++ t ++ after ∧
    Text.isBlank before ∧ NamesScheme name.toList ∧ Text.isBlank gap ∧ Text.isBlank after ∧
    IsToken t

theorem isScheme_iff : isScheme s = true ↔ NamesScheme s := by
  have hletter : ∀ c ∈ scheme, ∀ x : Char, x.toLower = c ↔ x = c ∨ x = c.toUpper := by
    intro c hc x
    refine Letter.toLower_eq_iff ?_
    have hsmall : ∀ c ∈ scheme, 97 ≤ c.toNat ∧ c.toNat ≤ 122 := by simp [scheme]
    exact hsmall c hc
  rw [isScheme, beq_iff_eq, ← List.forall₂_eq_eq_eq, List.forall₂_map_left_iff, NamesScheme]
  generalize scheme = l at hletter
  induction l generalizing s with
  | nil => rw [List.forall₂_nil_right_iff, List.forall₂_nil_right_iff]
  | cons c l ih =>
    rw [List.forall₂_cons_right_iff, List.forall₂_cons_right_iff]
    have hrest : ∀ s, _ := fun s => ih (s := s) fun c hc => hletter c (List.mem_cons_of_mem _ hc)
    simp only [hletter c List.mem_cons_self, hrest]

theorem NamesScheme.no_space (hs : NamesScheme s) : ∀ c ∈ s, Text.isSpace c = false := by
  have hletters : ∀ c ∈ scheme, Text.isSpace c = false ∧ Text.isSpace c.toUpper = false := by
    simp [scheme, Text.isSpace]
  rw [NamesScheme] at hs
  generalize scheme = l at hs hletters
  induction hs with
  | nil => exact fun c hc => absurd hc List.not_mem_nil
  | cons hx _ ih =>
    obtain ⟨hletter, hletters⟩ := List.forall_mem_cons.1 hletters
    refine List.forall_mem_cons.2 ⟨?_, ih hletters⟩
    rcases hx with rfl | rfl
    · exact hletter.1
    · exact hletter.2

theorem NamesScheme.exists_cons (hs : NamesScheme s) : ∃ c s', s = c :: s' := by
  rw [NamesScheme, scheme, List.forall₂_cons_right_iff] at hs
  obtain ⟨c, s', -, -, rfl⟩ := hs
  exact ⟨c, s', rfl⟩

/-- Between the white space around it, a header starts with a letter and ends with the token. -/
theorem trimmed_line {gap : List Char} (hs : NamesScheme s) (ht : IsToken t) :
    Text.Trimmed (s ++ ' ' :: (gap ++ t.toList)) where
  head c hc := by
    obtain ⟨c', s', rfl⟩ := hs.exists_cons
    cases hc
    exact hs.no_space _ List.mem_cons_self
  last c hc := by
    refine ht.no_space c (List.mem_of_mem_getLast? ?_)
    have hne : t.toList ≠ [] := fun hnil => ht.ne_empty (String.toList_eq_nil_iff.1 hnil)
    rwa [← List.cons_append, ← List.append_assoc, List.getLast?_append_of_ne_nil _ hne] at hc

theorem value?_of_carries (hcarries : Carries h t) : value? h = some t := by
  obtain ⟨before, name, gap, after, rfl, hbefore, hname, hgap, hafter, ht⟩ := hcarries
  have htrim : Text.trimEnd (Text.trimStart (before ++ name ++ " " ++ gap ++ t ++ after).toList) =
      name.toList ++ ' ' :: (gap.toList ++ t.toList) :=
    Text.trim_eq_iff.2 ⟨trimmed_line hname ht, before.toList, after.toList, hbefore, hafter, by simp⟩
  have hcut : Text.cut ' ' (name.toList ++ ' ' :: (gap.toList ++ t.toList)) =
      (name.toList, some (gap.toList ++ t.toList)) :=
    Text.cut_append fun hmem => absurd (hname.no_space ' ' hmem) (by decide)
  have htoken : Text.trimEnd (Text.trimStart (gap.toList ++ t.toList)) = t.toList :=
    Text.trim_eq_iff.2 ⟨.of_no_space ht.no_space, gap.toList, [], hgap, rfl, by simp⟩
  have hscheme : isScheme name.toList = true := isScheme_iff.2 hname
  have hne : t.toList.isEmpty = false := by simpa using ht.ne_empty
  have hspace : t.toList.any Text.isSpace = false := by simpa using ht.no_space
  simp only [value?, htrim, hcut, htoken, hscheme, hne, hspace]
  simp

theorem carries_of_value? (hvalue : value? h = some t) : Carries h t := by
  rw [value?] at hvalue
  generalize htrim : Text.trimEnd (Text.trimStart h.toList) = line at hvalue
  obtain ⟨-, before, after, hbefore, hafter, hh⟩ := Text.trim_eq_iff.1 htrim
  rcases hcut : Text.cut ' ' line with ⟨name, _ | rest⟩
  · simp [hcut] at hvalue
  have hline : line = name ++ ' ' :: rest := by
    have hline := Text.eq_of_cut (c := ' ') (s := line) (t := rest) (by rw [hcut])
    rwa [hcut] at hline
  rw [hcut] at hvalue
  obtain ⟨hread, ht⟩ := Option.ite_none_right_eq_some.1 hvalue
  simp only [Bool.and_eq_true, Bool.not_eq_true', List.any_eq_false] at hread
  obtain ⟨⟨hscheme, hne⟩, hspace⟩ := hread
  generalize htoken : Text.trimEnd (Text.trimStart rest) = token at ht hne hspace
  obtain ⟨-, gap, gap', hgap, hgap', hrest⟩ := Text.trim_eq_iff.1 htoken
  obtain rfl := Option.some.inj ht
  refine ⟨.ofList before, .ofList name, .ofList gap, .ofList (gap' ++ after), ?_, ?_, ?_, ?_, ?_,
    ?_, ?_⟩
  · rw [← String.toList_inj, hh, hline, hrest]
    simp
  · rwa [Text.isBlank, String.toList_ofList]
  · rw [String.toList_ofList]
    exact isScheme_iff.1 hscheme
  · rwa [Text.isBlank, String.toList_ofList]
  · rw [Text.isBlank, String.toList_ofList, List.all_append, hgap', hafter]
    rfl
  · intro hempty
    rw [String.ofList_eq_empty_iff.1 hempty] at hne
    cases hne
  · simpa using hspace

/-- A header is read as exactly what it carries. So every token is read from behind the scheme and a
blank, and no header carries two tokens. -/
theorem read_iff_carried (h t : String) :
    (value? h = some t ↔ Carries h t) ∧
    (IsToken t → value? ("Bearer " ++ t) = some t) ∧
    ∀ t', Carries h t → Carries h t' → t = t' := by
  refine ⟨⟨carries_of_value?, value?_of_carries⟩, fun ht => ?_, fun t' ht ht' => ?_⟩
  · refine value?_of_carries ⟨"", "Bearer", "", "", ?_, rfl, ?_, rfl, rfl, ht⟩
    · rw [← String.toList_inj]
      simp
    · rw [← isScheme_iff]
      decide
  · have hsame : some t = some t' := (value?_of_carries ht).symm.trans (value?_of_carries ht')
    exact Option.some.inj hsame

/-- Tabulators, no-break spaces and capitals do not matter. -/
theorem loose_header_read :
    IsToken "abc.def" ∧ Carries "\tBEARER \u00a0\tabc.def \n" "abc.def" ∧
      value? "\tBEARER \u00a0\tabc.def \n" = some "abc.def" ∧
      value? ("Bearer " ++ "abc.def") = some "abc.def" ∧
      ∀ t', Carries "\tBEARER \u00a0\tabc.def \n" t' → "abc.def" = t' := by
  have ht : IsToken "abc.def" := ⟨by decide, by simp [Text.isSpace]⟩
  have hcarried : Carries "\tBEARER \u00a0\tabc.def \n" "abc.def" := by
    refine ⟨"\t", "BEARER", "\u00a0\t", " \n", by decide, by decide, ?_, by decide, by decide, ht⟩
    rw [← isScheme_iff]
    decide
  obtain ⟨hread, hplain, hone⟩ := read_iff_carried "\tBEARER \u00a0\tabc.def \n" "abc.def"
  exact ⟨ht, hcarried, hread.2 hcarried, hplain ht, fun t' => hone t' hcarried⟩

end Bearer

end AccessControl
