import AccessControl.Proofs.Json.ReadBack

/-!
# Written values are read back

A value whose numbers are read back is read as itself from the text that it is written as, if it is
not nested too deep (`read?_legible`). Whole numbers that fit 64 bits are read back
(`hasNumeral_int`). The induction is over the value; at each step it carries what follows in the
text, and that the reader has calls left for the value (`calls`).
-/

namespace AccessControl.Json

mutual

/-- Every whole number of a value fits 64 bits. What is read from a text is such a value. -/
def exact : Json → Bool
  | int n => decide (Numeral.Exact n)
  | arr items => exactItems items
  | obj fields => exactFields fields
  | _ => true

def exactItems : List Json → Bool
  | [] => true
  | j :: js => exact j && exactItems js

def exactFields : List (String × Json) → Bool
  | [] => true
  | (_, j) :: fs => exact j && exactFields fs

end

/-- The text of a number is a literal that stands for it, wherever a value ends. -/
def HasNumeral (j : Json) : Prop :=
  ∃ l : Numeral, l.number? = some j ∧ ∀ r, Ended r → Numeral.read? (chars j ++ r) = some (l, r)

theorem hasNumeral_int {i : Int} (h : Numeral.Exact i) : HasNumeral (.int i) :=
  ⟨numeral i, Numeral.number?_numeral h, fun _ => Numeral.read?_numeral i⟩

mutual

/-- Every number of a value is read back from its text. -/
def Legible : Json → Prop
  | int i => HasNumeral (.int i)
  | float x => HasNumeral (.float x)
  | arr items => LegibleItems items
  | obj fields => LegibleFields fields
  | _ => True

def LegibleItems : List Json → Prop
  | [] => True
  | j :: js => Legible j ∧ LegibleItems js

def LegibleFields : List (String × Json) → Prop
  | [] => True
  | (_, j) :: fs => Legible j ∧ LegibleFields fs

end

mutual

theorem legible_of_exact : (j : Json) → j.floatFree → j.exact → j.Legible
  | .null, _, _ => trivial
  | .bool _, _, _ => trivial
  | .int _, _, he => hasNumeral_int (of_decide_eq_true he)
  | .float _, hf, _ => by simp [floatFree] at hf
  | .str _, _, _ => trivial
  | .arr items, hf, he => legibleItems_of_exact items hf he
  | .obj fields, hf, he => legibleFields_of_exact fields hf he

theorem legibleItems_of_exact : (js : List Json) → floatFreeItems js → exactItems js →
    LegibleItems js
  | [], _, _ => trivial
  | j :: js, hf, he => by
    simp only [floatFreeItems, exactItems, Bool.and_eq_true] at hf he
    exact ⟨legible_of_exact j hf.1 he.1, legibleItems_of_exact js hf.2 he.2⟩

theorem legibleFields_of_exact : (fs : List (String × Json)) → floatFreeFields fs →
    exactFields fs → LegibleFields fs
  | [], _, _ => trivial
  | (_, j) :: fs, hf, he => by
    simp only [floatFreeFields, exactFields, Bool.and_eq_true] at hf he
    exact ⟨legible_of_exact j hf.1 he.1, legibleFields_of_exact fs hf.2 he.2⟩

end

mutual

/-- How many calls deep a written value is read. -/
def calls : Json → Nat
  | arr items => callsItems items + 1
  | obj fields => callsFields fields + 1
  | _ => 1

def callsItems : List Json → Nat
  | [] => 0
  | j :: js => max (calls j) (callsItems js) + 1

def callsFields : List (String × Json) → Nat
  | [] => 0
  | (_, j) :: fs => max (calls j) (callsFields fs) + 1

end

/-! ### How a written value begins -/

theorem HasNumeral.front {j : Json} (h : j.HasNumeral) :
    ∃ c cs, chars j = c :: cs ∧ isBlank c = false ∧ c ≠ ']' := by
  obtain ⟨l, -, hread⟩ := h
  obtain ⟨c, cs, hcs, hc⟩ := Numeral.read?_front (hread [] fun _ hc => nomatch hc)
  refine ⟨c, cs, by simpa using hcs, isBlank_number_front hc, ?_⟩
  rintro rfl
  exact absurd hc (by decide)

theorem chars_front {j : Json} (hj : j.Legible) :
    ∃ c cs, chars j = c :: cs ∧ isBlank c = false ∧ c ≠ ']' := by
  cases j with
  | null => exact ⟨_, _, rfl, rfl, by decide⟩
  | bool b => cases b <;> exact ⟨_, _, rfl, rfl, by decide⟩
  | int i => exact HasNumeral.front hj
  | float x => exact HasNumeral.front hj
  | str s => exact ⟨_, _, rfl, rfl, by decide⟩
  | arr items => exact ⟨_, _, rfl, rfl, by decide⟩
  | obj fields => exact ⟨_, _, rfl, rfl, by decide⟩

theorem itemChars_single (j : Json) (r : List Char) : itemChars [j] ++ r = chars j ++ r := by
  simp [itemChars]

theorem itemChars_cons (j i : Json) (l : List Json) (r : List Char) :
    itemChars (j :: i :: l) ++ r = chars j ++ ',' :: (itemChars (i :: l) ++ r) := by
  simp [itemChars]

theorem itemChars_front {j : Json} (hj : j.Legible) (js : List Json) :
    ∃ c cs, itemChars (j :: js) = c :: cs ∧ isBlank c = false ∧ c ≠ ']' := by
  obtain ⟨c, cs, hchars, hc⟩ := chars_front hj
  cases js with
  | nil => exact ⟨c, cs, by simp [itemChars, hchars], hc⟩
  | cons i l => exact ⟨c, cs ++ ',' :: itemChars (i :: l), by simp [itemChars, hchars], hc⟩

theorem fieldChars_front (f : String × Json) (fs : List (String × Json)) :
    ∃ cs, fieldChars (f :: fs) = '"' :: cs := by
  cases fs with
  | nil => exact ⟨_, rfl⟩
  | cons g l => exact ⟨_, rfl⟩

/-! ### Reading back -/

theorem HasNumeral.value? {j : Json} (h : j.HasNumeral) {n depth : Nat} {r : List Char}
    (hr : Ended r) : value? (n + 1) .whole depth (chars j ++ r) = some (j, r) := by
  obtain ⟨l, hnumber, hread⟩ := h
  rw [value?_numeral (hread r hr), hnumber, Option.map_some]

theorem value?_arr {items : List Json} (hitems : LegibleItems items) {n depth : Nat} {r : List Char}
    (h : items ≠ [] → items? n .whole depth (itemChars items ++ ']' :: r) = some (items, r)) :
    value? (n + 1) .whole (depth + 1) (chars (.arr items) ++ r) = some (.arr items, r) := by
  have hshape : chars (.arr items) ++ r = '[' :: (itemChars items ++ ']' :: r) := by simp [chars]
  rw [hshape, value?.eq_def]
  simp only [skipBlanks_cons (c := '[') rfl]
  cases items with
  | nil => simp [itemChars, skipBlanks_cons (c := ']') rfl]
  | cons j js =>
    obtain ⟨c, cs, hchars, hblank, hne⟩ := itemChars_front hitems.1 js
    have hread := h (by simp)
    rw [hchars, List.cons_append] at hread ⊢
    rw [skipBlanks_cons hblank]
    split
    · next heq => exact absurd (List.cons.inj heq).1 hne
    · rw [hread, Option.map_some]

theorem value?_obj {fields : List (String × Json)} {n depth : Nat} {r : List Char}
    (h : fields ≠ [] → fields? n .whole depth (fieldChars fields ++ '}' :: r) = some (fields, r)) :
    value? (n + 1) .whole (depth + 1) (chars (.obj fields) ++ r) = some (.obj fields, r) := by
  have hshape : chars (.obj fields) ++ r = '{' :: (fieldChars fields ++ '}' :: r) := by simp [chars]
  rw [hshape, value?.eq_def]
  simp only [skipBlanks_cons (c := '{') rfl]
  cases fields with
  | nil => simp [fieldChars, skipBlanks_cons (c := '}') rfl]
  | cons f fs =>
    obtain ⟨cs, hchars⟩ := fieldChars_front f fs
    have hfields := h (by simp)
    rw [hchars, List.cons_append] at hfields ⊢
    rw [skipBlanks_cons (c := '"') rfl]
    split
    · next heq => exact absurd (List.cons.inj heq).1 (by decide)
    · rw [hfields, Option.map_some]

mutual

theorem value?_chars : (j : Json) → j.Legible → ∀ {n d : Nat} {r : List Char},
    Ended r → j.calls ≤ n → j.depth ≤ d →
    value? n .whole d (chars j ++ r) = some (j, r)
  | .null, _, n, d, r, _, hn, _ => by
    obtain ⟨n, rfl⟩ := Nat.exists_eq_add_of_le' hn
    rfl
  | .bool b, _, n, d, r, _, hn, _ => by
    obtain ⟨n, rfl⟩ := Nat.exists_eq_add_of_le' hn
    cases b <;> rfl
  | .int i, hj, n, d, r, hr, hn, _ => by
    obtain ⟨n, rfl⟩ := Nat.exists_eq_add_of_le' hn
    exact HasNumeral.value? hj hr
  | .float x, hj, n, d, r, hr, hn, _ => by
    obtain ⟨n, rfl⟩ := Nat.exists_eq_add_of_le' hn
    exact HasNumeral.value? hj hr
  | .str s, _, n, d, r, hr, hn, _ => by
    obtain ⟨n, rfl⟩ := Nat.exists_eq_add_of_le' hn
    exact echoes_str s n d r hr
  | .arr items, hj, n, d, r, _, hn, hd => by
    obtain ⟨n, rfl⟩ := Nat.exists_eq_add_of_le' (Nat.le_trans (Nat.le_add_left 1 _) hn)
    obtain ⟨d, rfl⟩ := Nat.exists_eq_add_of_le' (Nat.le_trans (Nat.le_add_left 1 _) hd)
    refine value?_arr hj fun hne => ?_
    exact items?_itemChars items hne hj (Nat.le_of_succ_le_succ hn) (Nat.le_of_succ_le_succ hd)
  | .obj fields, hj, n, d, r, _, hn, hd => by
    obtain ⟨n, rfl⟩ := Nat.exists_eq_add_of_le' (Nat.le_trans (Nat.le_add_left 1 _) hn)
    obtain ⟨d, rfl⟩ := Nat.exists_eq_add_of_le' (Nat.le_trans (Nat.le_add_left 1 _) hd)
    refine value?_obj fun hne => ?_
    exact fields?_fieldChars fields hne hj (Nat.le_of_succ_le_succ hn) (Nat.le_of_succ_le_succ hd)

theorem items?_itemChars : (js : List Json) → js ≠ [] → LegibleItems js →
    ∀ {n d : Nat} {r : List Char}, callsItems js ≤ n → depthItems js ≤ d →
    items? n .whole d (itemChars js ++ ']' :: r) = some (js, r)
  | [], hne, _, _, _, _, _, _ => absurd rfl hne
  | j :: js, _, hitems, n, d, r, hn, hd => by
    simp only [callsItems, depthItems] at hn hd
    obtain ⟨n, rfl⟩ := Nat.exists_eq_add_of_le' (Nat.le_trans (Nat.le_add_left 1 _) hn)
    rw [items?.eq_def]
    cases js with
    | nil =>
      rw [itemChars_single]
      have hj := value?_chars j hitems.1 (r := ']' :: r) (n := n) (d := d)
        (ended_cons _ (.inr (.inl rfl))) (by omega) (by omega)
      simp [hj, Shape.item, skipBlanks_cons (c := ']') rfl]
    | cons i l =>
      rw [itemChars_cons]
      have hj := value?_chars j hitems.1 (r := ',' :: (itemChars (i :: l) ++ ']' :: r)) (n := n)
        (d := d) (ended_cons _ (.inl rfl)) (by omega) (by omega)
      have hrest := items?_itemChars (i :: l) (by simp) hitems.2 (n := n) (d := d) (r := r)
        (by omega) (by omega)
      simp [hj, hrest, Shape.item, skipBlanks_cons (c := ',') rfl]

theorem fields?_fieldChars : (fs : List (String × Json)) → fs ≠ [] → LegibleFields fs →
    ∀ {n d : Nat} {r : List Char}, callsFields fs ≤ n → depthFields fs ≤ d →
    fields? n .whole d (fieldChars fs ++ '}' :: r) = some (fs, r)
  | [], hne, _, _, _, _, _, _ => absurd rfl hne
  | (k, j) :: fs, _, hfields, n, d, r, hn, hd => by
    simp only [callsFields, depthFields] at hn hd
    obtain ⟨n, rfl⟩ := Nat.exists_eq_add_of_le' (Nat.le_trans (Nat.le_add_left 1 _) hn)
    cases fs with
    | nil =>
      have hj := value?_chars j hfields.1 (r := '}' :: r) (n := n) (d := d)
        (ended_cons _ (.inr (.inr rfl))) (by omega) (by omega)
      rw [fieldChars_single, fields?_quoted, hj]
      simp [skipBlanks_cons (c := '}') rfl]
    | cons g l =>
      have hj := value?_chars j hfields.1 (r := ',' :: (fieldChars (g :: l) ++ '}' :: r)) (n := n)
        (d := d) (ended_cons _ (.inl rfl)) (by omega) (by omega)
      have hrest := fields?_fieldChars (g :: l) (by simp) hfields.2 (n := n) (d := d) (r := r)
        (by omega) (by omega)
      rw [fieldChars_cons, fields?_quoted, hj]
      simp [hrest, skipBlanks_cons (c := ',') rfl]

end

/-! ### The calls that a text has -/

mutual

theorem calls_le_length : (j : Json) → j.Legible → j.calls ≤ (chars j).length
  | .null, _ => by decide
  | .bool b, _ => by cases b <;> decide
  | .int i, hj => by
    obtain ⟨c, cs, hchars, -⟩ := chars_front hj
    simp [hchars, calls]
  | .float x, hj => by
    obtain ⟨c, cs, hchars, -⟩ := chars_front hj
    simp [hchars, calls]
  | .str s, _ => by simp [chars, quoted, calls]
  | .arr items, hj => by
    have hitems := callsItems_le_length items hj
    simp only [calls, chars, List.length_append, List.length_cons, List.length_nil]
    omega
  | .obj fields, hj => by
    have hfields := callsFields_le_length fields hj
    simp only [calls, chars, List.length_append, List.length_cons, List.length_nil]
    omega

theorem callsItems_le_length : (js : List Json) → LegibleItems js →
    callsItems js ≤ (itemChars js).length + 1
  | [], _ => by decide
  | j :: js, hitems => by
    have hj := calls_le_length j hitems.1
    have hjs := callsItems_le_length js hitems.2
    cases js with
    | nil => simpa [callsItems, itemChars] using hj
    | cons i l =>
      rw [callsItems]
      simp only [itemChars, List.length_append, List.length_cons]
      omega

theorem callsFields_le_length : (fs : List (String × Json)) → LegibleFields fs →
    callsFields fs ≤ (fieldChars fs).length + 1
  | [], _ => by decide
  | (k, j) :: fs, hfields => by
    have hj := calls_le_length j hfields.1
    have hfs := callsFields_le_length fs hfields.2
    cases fs with
    | nil =>
      simp only [callsFields, fieldChars, List.length_append, List.length_cons]
      omega
    | cons g l =>
      rw [callsFields]
      simp only [fieldChars, List.length_append, List.length_cons]
      omega

end

theorem read?_legible {j : Json} (hj : j.Legible) {depth : Nat} (hd : j.depth ≤ depth) :
    read? .whole depth (chars j) = some j := by
  have hcalls := calls_le_length j hj
  have hvalue := value?_chars j hj (r := []) (n := (chars j).length + 1) (d := depth)
    (fun c hc => nomatch hc) (by omega) hd
  rw [List.append_nil] at hvalue
  rw [read?, hvalue]
  rfl

theorem read?_chars {j : Json} (hf : j.floatFree) (he : j.exact) {depth : Nat}
    (hd : j.depth ≤ depth) : read? .whole depth (chars j) = some j :=
  read?_legible (legible_of_exact j hf he) hd

/-! ### Values in key order -/

/-- A value whose objects stand in key order and whose numbers are read back. -/
structure Intact (j : Json) : Prop where
  canonical : j.canonical = j
  legible : j.Legible

namespace Intact

theorem str (s : String) : (Json.str s).Intact := ⟨rfl, trivial⟩

theorem int {i : Int} (h : Numeral.Exact i) : (Json.int i).Intact := ⟨rfl, hasNumeral_int h⟩

theorem arr {items : List Json} (h : ∀ j ∈ items, j.Intact) : (Json.arr items).Intact := by
  have hitems : canonicalItems items = items ∧ LegibleItems items := by
    induction items with
    | nil => exact ⟨rfl, trivial⟩
    | cons j js ih =>
      obtain ⟨hcanonical, hlegible⟩ := ih fun i hi => h i (List.mem_cons_of_mem _ hi)
      have hj := h j List.mem_cons_self
      exact ⟨by rw [canonicalItems, hj.canonical, hcanonical], hj.legible, hlegible⟩
  exact ⟨by rw [Json.canonical, hitems.1], hitems.2⟩

theorem obj {fields : List (String × Json)} (hsorted : SortedBy key (fields.map (·.1)))
    (h : ∀ f ∈ fields, f.2.Intact) : (Json.obj fields).Intact := by
  have hfields : canonicalFields fields = fields ∧ LegibleFields fields := by
    clear hsorted
    induction fields with
    | nil => exact ⟨rfl, trivial⟩
    | cons f fs ih =>
      obtain ⟨hcanonical, hlegible⟩ := ih fun i hi => h i (List.mem_cons_of_mem _ hi)
      have hf := h f List.mem_cons_self
      exact ⟨by rw [canonicalFields, hf.canonical, hcanonical], hf.legible, hlegible⟩
  have hkeys : SortedBy (fun f : String × Json => key f.1) fields :=
    (List.pairwise_map (l := fields) (f := Prod.fst)).1 hsorted
  have horder : (SortedMap.ofList fields).toList = fields := SortedMap.toList_foldl_insert hkeys
  exact ⟨by rw [Json.canonical, hfields.1, horder], hfields.2⟩

theorem ofText?_text {j : Json} (h : j.Intact) {depth : Nat} (hd : j.depth ≤ depth) :
    ofText? j.text depth = some j := by
  rw [ofText?, text, String.toList_ofList, read?_legible h.legible hd, Option.map_some, h.canonical]

end Intact

end AccessControl.Json
