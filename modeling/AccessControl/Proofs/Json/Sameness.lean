import AccessControl.Condition
import AccessControl.Proofs.Number.Value

/-!
# Sameness of values

Sameness is an equivalence (`same_refl`, `same_symm`, `same_trans`), and no test of a condition tells
values apart that are the same: nullity, membership and order are alike for them.
-/

namespace AccessControl.Json

mutual

theorem same_refl : (j : Json) → j.same j
  | .null => rfl
  | .bool b => beq_self_eq_true b
  | .int n => beq_self_eq_true n
  | .float x => by simp [same, Binary64.cmp_eq_eq]
  | .str s => by simp [same]
  | .arr items => sameItems_refl items
  | .obj fields => sameFields_refl fields

theorem sameItems_refl : (js : List Json) → sameItems js js
  | [] => rfl
  | j :: js => by simp [sameItems, same_refl j, sameItems_refl js]

theorem sameFields_refl : (fs : List (String × Json)) → sameFields fs fs
  | [] => rfl
  | (k, j) :: fs => by simp [sameFields, same_refl j, sameFields_refl fs]

end

mutual

/-- What is the same as one of two values that are the same is the same as the other. -/
theorem same_congr : (a : Json) → {b : Json} → a.same b → (c : Json) → a.same c = b.same c
  | .null, b, h, c => by
    cases b with
    | null => rfl
    | _ => simp [same] at h
  | .bool x, b, h, c => by
    cases b with
    | bool y =>
      obtain rfl : x = y := by simpa [same] using h
      rfl
    | _ => simp [same] at h
  | .int x, b, h, c => by
    cases b with
    | int y =>
      obtain rfl : x = y := by simpa [same] using h
      rfl
    | _ => simp [same] at h
  | .float x, b, h, c => by
    cases b with
    | float y =>
      have hxy : x.value = y.value := Binary64.cmp_eq_eq.1 (by simpa [same] using h)
      cases c with
      | float z =>
        rw [Bool.eq_iff_iff]
        simp [same, Binary64.cmp_eq_eq, hxy]
      | _ => rfl
    | _ => simp [same] at h
  | .str x, b, h, c => by
    cases b with
    | str y =>
      obtain rfl : x = y := by simpa [same] using h
      rfl
    | _ => simp [same] at h
  | .arr as, b, h, c => by
    cases b with
    | arr bs =>
      cases c with
      | arr cs => exact sameItems_congr as h cs
      | _ => rfl
    | _ => simp [same] at h
  | .obj as, b, h, c => by
    cases b with
    | obj bs =>
      cases c with
      | obj cs => exact sameFields_congr as h cs
      | _ => rfl
    | _ => simp [same] at h

theorem sameItems_congr : (as : List Json) → {bs : List Json} → sameItems as bs →
    (cs : List Json) → sameItems as cs = sameItems bs cs
  | [], bs, h, cs => by
    cases bs with
    | nil => rfl
    | cons b bs => simp [sameItems] at h
  | a :: as, bs, h, cs => by
    cases bs with
    | nil => simp [sameItems] at h
    | cons b bs =>
      obtain ⟨hhead, htail⟩ : a.same b ∧ sameItems as bs := by simpa [sameItems] using h
      cases cs with
      | nil => rfl
      | cons c cs => rw [sameItems, sameItems, same_congr a hhead c, sameItems_congr as htail cs]

theorem sameFields_congr : (as : List (String × Json)) → {bs : List (String × Json)} →
    sameFields as bs → (cs : List (String × Json)) → sameFields as cs = sameFields bs cs
  | [], bs, h, cs => by
    cases bs with
    | nil => rfl
    | cons b bs => simp [sameFields] at h
  | (k, a) :: as, bs, h, cs => by
    rcases bs with _ | ⟨⟨l, b⟩, bs⟩
    · simp [sameFields] at h
    · obtain ⟨⟨rfl, hhead⟩, htail⟩ : (k = l ∧ a.same b) ∧ sameFields as bs := by
        simpa [sameFields] using h
      rcases cs with _ | ⟨⟨m, c⟩, cs⟩
      · rfl
      · rw [sameFields, sameFields, same_congr a hhead c, sameFields_congr as htail cs]

end

variable {a b c v w s t x y : Json}

theorem same_symm (h : a.same b) : b.same a := by
  rw [← same_congr a h a]
  exact same_refl a

theorem same_trans (hab : a.same b) (hbc : b.same c) : a.same c := by
  rw [same_congr a hab c]
  exact hbc

/-- Sameness does not tell apart what is the same, on either side. -/
theorem same_same (hab : a.same b) (hxy : x.same y) : a.same x = b.same y := by
  rw [same_congr a hab x, Bool.eq_iff_iff]
  exact ⟨fun h => same_trans h hxy, fun h => same_trans h (same_symm hxy)⟩

theorem isNull_same (h : a.same b) : a.isNull = b.isNull := by
  cases a <;> cases b <;> first | rfl | simp [same] at h

theorem field?_same {k : String} (h : a.same b) (hv : a.field? k = some v) :
    ∃ w, b.field? k = some w ∧ v.same w := by
  cases a with
  | obj fs =>
    cases b with
    | obj gs =>
      replace h : sameFields fs gs := h
      induction fs generalizing gs with
      | nil => cases hv
      | cons f fs ih =>
        rcases gs with _ | ⟨⟨l, y⟩, gs⟩
        · simp [sameFields] at h
        · obtain ⟨m, x⟩ := f
          obtain ⟨⟨rfl, hhead⟩, htail⟩ : (m = l ∧ x.same y) ∧ sameFields fs gs := by
            simpa [sameFields] using h
          by_cases hk : m = k
          · obtain rfl : x = v := by simpa [field?, hk] using hv
            exact ⟨y, by simp [field?, hk], hhead⟩
          · have hrest : (Json.obj fs).field? k = some v := by simpa [field?, hk] using hv
            obtain ⟨w, hw, hsame⟩ := ih hrest gs htail
            exact ⟨w, by simpa [field?, hk] using hw, hsame⟩
    | _ => simp [same] at h
  | _ => cases hv

theorem any_same {is js : List Json} (h : sameItems is js) (hvw : v.same w) :
    is.any (same v) = js.any (same w) := by
  induction is generalizing js with
  | nil =>
    cases js with
    | nil => rfl
    | cons j js => simp [sameItems] at h
  | cons i is ih =>
    cases js with
    | nil => simp [sameItems] at h
    | cons j js =>
      obtain ⟨hhead, htail⟩ : i.same j ∧ sameItems is js := by simpa [sameItems] using h
      rw [List.any_cons, List.any_cons, same_same hvw hhead, ih htail]

theorem any_any_same {vs ws is js : List Json} (hvw : sameItems vs ws) (h : sameItems is js) :
    (vs.any fun v => is.any (same v)) = ws.any fun w => js.any (same w) := by
  induction vs generalizing ws with
  | nil =>
    cases ws with
    | nil => rfl
    | cons w ws => simp [sameItems] at hvw
  | cons v vs ih =>
    cases ws with
    | nil => simp [sameItems] at hvw
    | cons w ws =>
      obtain ⟨hhead, htail⟩ : v.same w ∧ sameItems vs ws := by simpa [sameItems] using hvw
      rw [List.any_cons, List.any_cons, any_same h hhead, ih htail]

theorem memberOf_same (hvw : v.same w) (hst : s.same t) : v.memberOf s = w.memberOf t := by
  cases s with
  | arr is =>
    cases t with
    | arr js =>
      have hitems : sameItems is js := hst
      cases v with
      | arr vs =>
        cases w with
        | arr ws => exact any_any_same hvw hitems
        | _ => simp [same] at hvw
      | _ =>
        cases w with
        | arr ws => simp [same] at hvw
        | _ => exact any_same hitems hvw
    | _ => simp [same] at hst
  | _ =>
    cases t with
    | arr js => simp [same] at hst
    | _ => rfl

theorem double?_same (h : a.same b) :
    Option.Rel (fun x y => x.value = y.value) a.double? b.double? := by
  cases a <;> cases b <;> simp only [same, Bool.false_eq_true, beq_iff_eq] at h
  · exact .none
  · exact .none
  · exact h ▸ .some rfl
  · exact .some (Binary64.cmp_eq_eq.1 h)
  · exact .none
  · exact .none
  · exact .none

theorem str?_same (h : a.same b) : a.str? = b.str? := by
  cases a <;> cases b <;> simp only [same, Bool.false_eq_true, beq_iff_eq] at h
  all_goals first | rfl | rw [h]

theorem order?_eq (a b : Json) : a.order? b =
    match a.double?, b.double? with
    | some x, some y => some (x.cmp y)
    | _, _ => match a.str?, b.str? with
      | some s, some t => some (if s < t then .lt else if t < s then .gt else .eq)
      | _, _ => none := by
  cases a <;> cases b <;> rfl

theorem order?_same (hab : a.same b) (hxy : x.same y) : a.order? x = b.order? y := by
  rw [order?_eq, order?_eq, str?_same hab, str?_same hxy]
  have hd := double?_same hab
  have he := double?_same hxy
  generalize a.double? = p, b.double? = p', x.double? = q, y.double? = q' at hd he ⊢
  rcases hd with hd | _ <;> rcases he with he | _
  · simp only [Binary64.cmp_congr hd he]
  all_goals rfl

end AccessControl.Json
