import AccessControl.Json.Reader
import AccessControl.Json.Writer

/-!
# Reading back what was written

A written text or whole number is read as that value, whatever comes after it (`echoes_str`,
`echoes_int`), and the fields at the front of a written object are read in their order, also where
nothing is known of the values behind them (`read?_obj_front`). Only a whole number beyond 64 bits
is read as something else: as the double next to it.
-/

namespace AccessControl

namespace Digits

theorem value_toDigits (n : Nat) : value (Nat.toDigits 10 n) = n := Nat.ofDigitChars_ten_toDigits

theorem digits?_append {ds r : List Char} (hne : ds ≠ []) (hds : ∀ c ∈ ds, c.isDigit)
    (hr : ∀ c ∈ r.head?, c.isDigit = false) : digits? (ds ++ r) = some (ds, r) := by
  have htake : r.takeWhile Char.isDigit = [] := by
    cases r with
    | nil => rfl
    | cons c r => simp [hr c rfl]
  have hdrop : r.dropWhile Char.isDigit = r := by
    cases r with
    | nil => rfl
    | cons c r => simp [hr c rfl]
  rw [digits?, List.takeWhile_append_of_pos hds, List.dropWhile_append_of_pos hds, htake, hdrop,
    List.append_nil]
  cases ds with
  | nil => exact absurd rfl hne
  | cons c ds => rfl

/-- A row of digits starts with a zero only if it is the number zero. -/
theorem head?_toDigits {n : Nat} (h : n ≠ 0) : (Nat.toDigits 10 n).head? ≠ some '0' := by
  induction n using Nat.strongRecOn with
  | ind n ih =>
    rw [Nat.toDigits_eq_if (by decide)]
    split
    · next hlt => simpa using h
    · next hge =>
      have hrec := ih (n / 10) (by omega) (by omega)
      rwa [List.head?_append, Option.or_of_isSome (by simp [Nat.toDigits_ne_nil])]

end Digits

namespace Json

open Digits (value digits?)

/-- The text is over, or goes on with the comma or bracket behind a value. -/
def Ended (r : List Char) : Prop := ∀ c ∈ r.head?, c = ',' ∨ c = ']' ∨ c = '}'

theorem ended_cons {c : Char} (r : List Char) (h : c = ',' ∨ c = ']' ∨ c = '}') : Ended (c :: r) :=
  fun _ hc => Option.some.inj hc ▸ h

theorem Ended.not_isDigit {r : List Char} (h : Ended r) : ∀ c ∈ r.head?, c.isDigit = false := by
  intro c hc
  rcases h c hc with rfl | rfl | rfl <;> decide

/-! ### Whole numbers -/

/-- The literal that a whole number is written as. -/
def numeral (i : Int) : Numeral := ⟨decide (i < 0), Nat.toDigits 10 i.natAbs, none, none⟩

theorem chars_int (i : Int) :
    chars (.int i) = if i < 0 then '-' :: Nat.toDigits 10 i.natAbs else Nat.toDigits 10 i.natAbs := by
  rw [chars, Int.toString_eq_repr, Int.repr_eq_if]
  by_cases h : i < 0
  · have hn : (-i).toNat = i.natAbs := by omega
    rw [if_neg (by omega), if_pos h, hn, String.toList_append, Nat.toList_repr]
    rfl
  · have hn : i.toNat = i.natAbs := by omega
    rw [if_pos (by omega), if_neg h, hn, Nat.toList_repr]

namespace Numeral

theorem whole?_toDigits (n : Nat) {r : List Char} (hr : Ended r) :
    whole? (Nat.toDigits 10 n ++ r) = some (Nat.toDigits 10 n, r) := by
  have hdigits := Digits.digits?_append (Nat.toDigits_ne_nil (n := n) (b := 10))
    (fun c hc => Nat.isDigit_of_mem_toDigits (by decide) (by decide) hc) hr.not_isDigit
  by_cases hn : n = 0
  · subst hn
    rw [Nat.toDigits_zero]
    cases r with
    | nil => rfl
    | cons c r => simp [whole?, hr.not_isDigit c rfl]
  · have hhead := Digits.head?_toDigits hn
    cases hd : Nat.toDigits 10 n with
    | nil => exact absurd hd Nat.toDigits_ne_nil
    | cons c cs =>
      rw [hd] at hdigits hhead
      rw [whole?.eq_def, List.cons_append]
      split
      · next heq => simp_all
      · exact hdigits

/-- A number literal begins with a minus sign or a digit. -/
theorem read?_front {cs r : List Char} {l : Numeral} (h : read? cs = some (l, r)) :
    ∃ c rest, cs = c :: rest ∧ (c = '-' ∨ c.isDigit) := by
  cases cs with
  | nil => cases h
  | cons c rest =>
    refine ⟨c, rest, rfl, Decidable.byContradiction fun hc => ?_⟩
    obtain ⟨hsign, hdigit⟩ := not_or.1 hc
    have hwhole : whole? (c :: rest) = none := by
      rw [whole?.eq_def]
      split
      · next heq => exact absurd (List.cons.inj heq).1 (by rintro rfl; exact hdigit rfl)
      · simp [digits?, hdigit]
    rw [read?.eq_def] at h
    split at h
    rename_i neg cs heq
    split at heq
    · next hcs => exact hsign (List.cons.inj hcs).1
    · obtain ⟨rfl, rfl⟩ := Prod.mk.inj heq
      simp [hwhole] at h

theorem read?_numeral (i : Int) {r : List Char} (hr : Ended r) :
    read? (chars (.int i) ++ r) = some (numeral i, r) := by
  have htail : fraction? r = some (none, r) ∧ exponent? r = some (none, r) := by
    cases r with
    | nil => exact ⟨rfl, rfl⟩
    | cons c r => rcases hr c rfl with rfl | rfl | rfl <;> exact ⟨rfl, rfl⟩
  have hwhole := whole?_toDigits i.natAbs hr
  rw [chars_int, read?.eq_def]
  by_cases h : i < 0
  · simp [h, hwhole, htail, numeral]
  · have hsign : ∀ cs, Nat.toDigits 10 i.natAbs ++ r ≠ '-' :: cs := by
      intro cs hcs
      have hmem : '-' ∈ Nat.toDigits 10 i.natAbs := by
        cases hd : Nat.toDigits 10 i.natAbs with
        | nil => exact absurd hd Nat.toDigits_ne_nil
        | cons c ds => rw [hd] at hcs; simp_all
      exact absurd (Nat.isDigit_of_mem_toDigits (by decide) (by decide) hmem) (by decide)
    rw [if_neg h]
    split
    rename_i neg cs heq
    split at heq
    · next hcs => exact absurd hcs (hsign _)
    · obtain ⟨rfl, rfl⟩ := Prod.mk.inj heq
      simp [hwhole, htail, numeral, h]

/-- The whole numbers that fit 64 bits, with or without sign. -/
def Exact (i : Int) : Prop := -maxNegated ≤ i ∧ i ≤ maxSignificand

instance (i : Int) : Decidable (Exact i) := inferInstanceAs (Decidable (_ ∧ _))

theorem number?_numeral {i : Int} (h : Exact i) : (numeral i).number? = some (.int i) := by
  obtain ⟨hlow, hhigh⟩ := h
  simp only [number?, numeral, Digits.value_toDigits, decide_eq_true_eq]
  by_cases hi : i < 0
  · rw [if_pos hi, if_pos (by omega)]
    exact congrArg (fun n => some (Json.int n)) (by omega)
  · rw [if_neg hi, if_pos (by omega)]
    exact congrArg (fun n => some (Json.int n)) (by omega)

end Numeral

/-- What a written text or whole number is read as. -/
def echo? : Json → Option Json
  | .int i => (numeral i).number?
  | j => some j

/-- Wherever a value is written, `echo?` is what is read. -/
def Echoes (j : Json) : Prop := ∀ (n depth : Nat) (r : List Char), Ended r →
  value? (n + 1) .whole depth (chars j ++ r) = (echo? j).map (·, r)

theorem isBlank_number_front {c : Char} (h : c = '-' ∨ c.isDigit) : isBlank c = false := by
  cases hb : isBlank c with
  | false => rfl
  | true =>
    simp only [isBlank, Bool.or_eq_true, beq_iff_eq] at hb
    rcases hb with ((rfl | rfl) | rfl) | rfl <;> exact absurd h (by decide)

/-- Where a number literal stands, the number is read that it stands for. -/
theorem value?_numeral {cs r : List Char} {l : Numeral} (h : Numeral.read? cs = some (l, r))
    (n depth : Nat) : value? (n + 1) .whole depth cs = l.number?.map (·, r) := by
  obtain ⟨c, rest, rfl, hc⟩ := Numeral.read?_front h
  have hblank : skipBlanks (c :: rest) = c :: rest := by
    rw [skipBlanks, List.dropWhile_cons_of_neg (by simp [isBlank_number_front hc])]
  have hne : ∀ x : Char, x ≠ '-' → x.isDigit = false → c ≠ x := by
    rintro x hx hxd rfl
    rcases hc with rfl | hc
    · exact hx rfl
    · exact absurd hc (by simp [hxd])
  rw [value?.eq_def]
  simp only
  rw [hblank]
  split
  all_goals first
    | next he => exact absurd (List.cons.inj he).1 (hne _ (by decide) (by decide))
    | rw [h]; cases hnumber : l.number? <;> simp [hnumber]

theorem echoes_int (i : Int) : Echoes (.int i) := fun n depth _ hr =>
  value?_numeral (Numeral.read?_numeral i hr) n depth

/-! ### Texts -/

theorem hexValue?_hexDigit : ∀ n < 16, hexValue? (hexDigit n) = some n := by decide

theorem unicode?_control {c : Char} (h : c.toNat < 0x20) (r : List Char) :
    unicode? ('0' :: '0' :: hexDigit (c.toNat / 16) :: hexDigit c.toNat :: r) = some (c, r) := by
  have hlow : hexDigit c.toNat = hexDigit (c.toNat % 16) := by simp [hexDigit]
  have hzero : hexValue? '0' = some 0 := by decide
  have hval : (0 * 16 + 0) * 16 + c.toNat / 16 = c.toNat / 16 := by omega
  have hnum : c.toNat / 16 * 16 + c.toNat % 16 = c.toNat := by omega
  have hplain : ¬(0xD800 ≤ c.toNat ∧ c.toNat ≤ 0xDBFF) ∧ ¬(0xDC00 ≤ c.toNat ∧ c.toNat ≤ 0xDFFF) := by
    omega
  simp only [unicode?, hex4?, hlow, hzero, hexValue?_hexDigit (c.toNat / 16) (by omega),
    hexValue?_hexDigit (c.toNat % 16) (by omega), Option.bind_eq_bind, Option.bind_some,
    Option.pure_def, hval, hnum, if_neg hplain.1, if_neg hplain.2, Char.ofNat_toNat]

theorem quotedBody?_escape (n : Nat) (c : Char) (r : List Char) :
    quotedBody? (n + 1) (escape c ++ r) = (quotedBody? n r).map fun (s, r) => (c :: s, r) := by
  unfold escape
  split
  · next h => subst h; cases h : quotedBody? n r <;> simp [quotedBody?, simpleEscape?, h]
  split
  · next h => subst h; cases h : quotedBody? n r <;> simp [quotedBody?, simpleEscape?, h]
  split
  · next hc =>
    split
    · next h => subst h; cases h : quotedBody? n r <;> simp [quotedBody?, simpleEscape?, h]
    split
    · next h => subst h; cases h : quotedBody? n r <;> simp [quotedBody?, simpleEscape?, h]
    split
    · next h => subst h; cases h : quotedBody? n r <;> simp [quotedBody?, simpleEscape?, h]
    split
    · next h => subst h; cases h : quotedBody? n r <;> simp [quotedBody?, simpleEscape?, h]
    split
    · next h => subst h; cases h : quotedBody? n r <;> simp [quotedBody?, simpleEscape?, h]
    · simp only [List.cons_append, List.nil_append, quotedBody?, unicode?_control hc]
      cases h : quotedBody? n r <;> simp [h]
  · next hq hb hc =>
    rw [quotedBody?.eq_def]
    simp only [List.cons_append, List.nil_append]
    split <;> grind

theorem quotedBody?_quoted (s r : List Char) {n : Nat} (h : s.length < n) :
    quotedBody? n (s.flatMap escape ++ '"' :: r) = some (s, r) := by
  induction s generalizing n with
  | nil =>
    obtain ⟨m, rfl⟩ := Nat.exists_eq_add_of_lt h
    rfl
  | cons c s ih =>
    cases n with
    | zero => exact absurd h (Nat.not_lt_zero _)
    | succ n =>
      rw [List.flatMap_cons, List.append_assoc, quotedBody?_escape,
        ih (by simpa using h)]
      rfl

theorem length_le_flatMap_escape (s : List Char) : s.length ≤ (s.flatMap escape).length := by
  induction s with
  | nil => simp
  | cons c s ih =>
    have hpos : 0 < (escape c).length := by
      unfold escape
      repeat' split
      all_goals simp
    rw [List.flatMap_cons, List.length_append, List.length_cons]
    omega

theorem quoted?_chars (s : String) (r : List Char) :
    quoted? (s.toList.flatMap escape ++ '"' :: r) = some (s, r) := by
  have hlen := length_le_flatMap_escape s.toList
  rw [quoted?, quotedBody?_quoted _ _ (by simp only [List.length_append]; omega)]
  simp

theorem echoes_str (s : String) : Echoes (.str s) := by
  intro n depth r _
  have hshape : chars (.str s) ++ r = '"' :: (s.toList.flatMap escape ++ '"' :: r) := by
    simp [chars, quoted]
  rw [hshape, value?.eq_def]
  simp [skipBlanks, isBlank, quoted?_chars, echo?]

/-! ### Objects -/

theorem skipBlanks_cons {c : Char} (h : isBlank c = false) (r : List Char) :
    skipBlanks (c :: r) = c :: r :=
  List.dropWhile_cons_of_neg (by simp [h])

theorem quoted_append (k : String) (r : List Char) :
    quoted k ++ r = '"' :: (k.toList.flatMap escape ++ '"' :: r) := by
  simp [quoted]

/-- A written key is read, and then the value behind it. -/
theorem fields?_quoted (k : String) (n depth : Nat) (r : List Char) :
    fields? (n + 1) .whole depth (quoted k ++ ':' :: r) =
      (value? n .whole depth r).bind fun (j, r) => match skipBlanks r with
        | ',' :: r => (fields? n .whole depth r).map fun (fs, r) => ((k, j) :: fs, r)
        | '}' :: r => some ([(k, j)], r)
        | _ => none := by
  rw [fields?.eq_def, quoted_append]
  simp only [skipBlanks_cons (c := '"') rfl, skipBlanks_cons (c := ':') rfl, quoted?_chars,
    Option.bind_eq_bind, Option.bind_some, Option.pure_def, Shape.field?]
  cases hv : value? n .whole depth r with
  | none => rfl
  | some jr =>
    simp only [Option.map_some, Option.bind_some]
    generalize skipBlanks jr.2 = t
    rcases t with _ | ⟨c, r'⟩
    · rfl
    · by_cases hcomma : c = ','
      · subst hcomma
        show (fields? n .whole depth r').bind _ = (fields? n .whole depth r').map _
        cases fields? n .whole depth r' <;> rfl
      · by_cases hclose : c = '}'
        · subst hclose
          rfl
        · simp [hcomma, hclose]

theorem fields?_cons {k : String} {j : Json} (hj : Echoes j) (n depth : Nat) (more : List Char) :
    fields? (n + 2) .whole depth (quoted k ++ ':' :: (chars j ++ ',' :: more)) =
      (echo? j).bind fun j' =>
        (fields? (n + 1) .whole depth more).map fun (fs, r) => ((k, j') :: fs, r) := by
  rw [fields?_quoted, hj n depth (',' :: more) (ended_cons _ (.inl rfl))]
  cases echo? j with
  | none => rfl
  | some j' => simp only [Option.map_some, Option.bind_some, skipBlanks_cons (c := ',') rfl]

theorem fields?_last {k : String} {j : Json} (hj : Echoes j) (n depth : Nat) (more : List Char) :
    fields? (n + 2) .whole depth (quoted k ++ ':' :: (chars j ++ '}' :: more)) =
      (echo? j).map fun j' => ([(k, j')], more) := by
  rw [fields?_quoted, hj n depth ('}' :: more) (ended_cons _ (.inr (.inr rfl)))]
  cases echo? j with
  | none => rfl
  | some j' => simp only [Option.map_some, Option.bind_some, skipBlanks_cons (c := '}') rfl]

def echoFields? (fs : List (String × Json)) : Option (List (String × Json)) :=
  fs.mapM fun f => (echo? f.2).map (f.1, ·)

theorem fieldChars_single (k : String) (j : Json) (r : List Char) :
    fieldChars [(k, j)] ++ r = quoted k ++ ':' :: (chars j ++ r) := by
  simp [fieldChars]

theorem fieldChars_cons (k : String) (j : Json) (g : String × Json) (l : List (String × Json))
    (r : List Char) :
    fieldChars ((k, j) :: g :: l) ++ r =
      quoted k ++ ':' :: (chars j ++ ',' :: (fieldChars (g :: l) ++ r)) := by
  simp [fieldChars]

/-- Fields are read off the front, whatever the others are. -/
theorem fields?_front {front rest : List (String × Json)} (hf : ∀ f ∈ front, Echoes f.2)
    {n depth : Nat} {r r' : List Char} {fs : List (String × Json)}
    (h : fields? n .whole depth (fieldChars (front ++ rest) ++ '}' :: r) = some (fs, r')) :
    ∃ read others, echoFields? front = some read ∧ fs = read ++ others := by
  induction front generalizing n fs r' with
  | nil => exact ⟨[], fs, rfl, rfl⟩
  | cons f front ih =>
    obtain ⟨k, j⟩ := f
    have hj : Echoes j := hf (k, j) List.mem_cons_self
    match n with
    | 0 => simp [fields?] at h
    | 1 =>
      cases hl : front ++ rest with
      | nil =>
        rw [List.cons_append, hl, fieldChars_single, fields?_quoted] at h
        simp [value?] at h
      | cons g l =>
        rw [List.cons_append, hl, fieldChars_cons, fields?_quoted] at h
        simp [value?] at h
    | n + 2 =>
      cases hl : front ++ rest with
      | nil =>
        rw [List.cons_append, hl, fieldChars_single, fields?_last hj] at h
        obtain ⟨j', he, heq⟩ := Option.map_eq_some_iff.1 h
        obtain ⟨rfl, rfl⟩ := List.append_eq_nil_iff.1 hl
        obtain ⟨rfl, -⟩ := Prod.mk.inj heq
        exact ⟨[(k, j')], [], by simp [echoFields?, he], rfl⟩
      | cons g l =>
        rw [List.cons_append, hl, fieldChars_cons, fields?_cons hj] at h
        obtain ⟨j', he, h⟩ := Option.bind_eq_some_iff.1 h
        obtain ⟨⟨fs', r''⟩, hfs, heq⟩ := Option.map_eq_some_iff.1 h
        obtain ⟨rfl, -⟩ := Prod.mk.inj heq
        rw [← hl] at hfs
        obtain ⟨read, others, hread, rfl⟩ := ih (fun f hm => hf f (List.mem_cons_of_mem _ hm)) hfs
        refine ⟨(k, j') :: read, others, ?_, rfl⟩
        rw [echoFields?] at hread ⊢
        simp [he, hread]

/-- What an object is read as begins with what its first fields are read as. -/
theorem read?_obj_front {front rest : List (String × Json)} (hf : ∀ f ∈ front, Echoes f.2)
    (hne : front ≠ []) {depth : Nat} {j : Json}
    (h : read? .whole (depth + 1) (chars (.obj (front ++ rest))) = some j) :
    ∃ read others, echoFields? front = some read ∧ j = .obj (read ++ others) := by
  obtain ⟨⟨j', r⟩, hvalue, hj⟩ := Option.bind_eq_some_iff.1 h
  obtain ⟨-, rfl⟩ : (skipBlanks r).isEmpty = true ∧ j' = j := by simpa using hj
  have hquote : ∃ more, fieldChars (front ++ rest) ++ ['}'] = '"' :: more := by
    obtain ⟨⟨k, i⟩, l, rfl⟩ := List.exists_cons_of_ne_nil hne
    cases hl : l ++ rest with
    | nil => exact ⟨_, by rw [List.cons_append, hl, fieldChars_single, quoted_append]⟩
    | cons g m => exact ⟨_, by rw [List.cons_append, hl, fieldChars_cons, quoted_append]⟩
  obtain ⟨more, hmore⟩ := hquote
  have hshape : chars (.obj (front ++ rest)) = '{' :: '"' :: more := by
    rw [chars, List.cons_append, hmore]
  rw [hshape, value?.eq_def] at hvalue
  simp only [skipBlanks_cons (c := '{') rfl, skipBlanks_cons (c := '"') rfl] at hvalue
  split at hvalue
  · next heq => exact absurd heq (by simp)
  · obtain ⟨⟨fs, r'⟩, hfields, heq⟩ := Option.map_eq_some_iff.1 hvalue
    rw [← hmore] at hfields
    obtain ⟨read, others, hread, rfl⟩ := fields?_front hf hfields
    exact ⟨read, others, hread, (congrArg Prod.fst heq).symm⟩

end Json

end AccessControl
