import AccessControl.Permission
import Mathlib.Algebra.Order.BigOperators.Group.List
import Mathlib.Algebra.Order.Group.Nat

/-!
# Coverage of permissions

A permission is read as a pattern and as what a pattern covers, so coverage relates patterns.
`SegmentsCovered` says how a pattern is worked off segment by segment, and `segmentsCover` decides it
(`segmentsCover_iff`). By induction on how it is worked off, coverage is reflexive, transitive and
antisymmetric, whatever stars and empty segments there are. A permission therefore covers another
iff it covers all that the other covers (`coverage_is_inclusion`). It is enough that it covers the
permissions without stars among them: one of these has a new segment for each star, which no segment
of a pattern covers but a star (`covers_of_concrete`).
-/

namespace AccessControl.Permission

/-- How the segments of a pattern cover those of a permission. -/
inductive SegmentsCovered : List String → List String → Prop
  | done : SegmentsCovered [] []
  /-- A last star covers all that is left, but not nothing. -/
  | rest (t : String) (ts : List String) : SegmentsCovered ["*"] (t :: ts)
  | any (t : String) {ps ts : List String} (h : SegmentsCovered ps ts) :
    SegmentsCovered ("*" :: ps) (t :: ts)
  | same (p : String) {ps ts : List String} (h : SegmentsCovered ps ts) :
    SegmentsCovered (p :: ps) (p :: ts)

namespace SegmentsCovered

variable {ps qs rs : List String}

theorem eq_nil (h : SegmentsCovered ps []) : ps = [] := by cases h; rfl

theorem refl : (ps : List String) → SegmentsCovered ps ps
  | [] => .done
  | p :: ps => .same p (refl ps)

theorem trans (hpq : SegmentsCovered ps qs) (hqr : SegmentsCovered qs rs) :
    SegmentsCovered ps rs := by
  induction hpq generalizing rs with
  | done => exact hqr
  | rest q qs =>
    -- what the last star covers has a segment left in whatever way it covers on
    cases hqr with
    | rest r rs => exact .rest r rs
    | any r _ => exact .rest r _
    | same => exact .rest q _
  | any q h ih =>
    cases hqr with
    | rest r rs =>
      rw [h.eq_nil]
      exact .rest r rs
    | any r hqr => exact .any r (ih hqr)
    | same _ hqr => exact .any q (ih hqr)
  | same p h ih =>
    cases hqr with
    | rest r rs =>
      rw [h.eq_nil]
      exact .rest r rs
    | any r hqr => exact .any r (ih hqr)
    | same _ hqr => exact .same p (ih hqr)

theorem antisymm (hpq : SegmentsCovered ps qs) (hqp : SegmentsCovered qs ps) : ps = qs := by
  induction hpq with
  | done => rfl
  | rest q qs =>
    cases hqp with
    | rest => rfl
    | any _ h => rw [h.eq_nil]
    | same _ h => rw [h.eq_nil]
  | any q h ih =>
    cases hqp with
    | rest => rw [h.eq_nil]
    | any _ hqp => rw [ih hqp]
    | same _ hqp => rw [ih hqp]
  | same p h ih =>
    cases hqp with
    | rest => rw [h.eq_nil]
    | any _ hqp => rw [ih hqp]
    | same _ hqp => rw [ih hqp]

end SegmentsCovered

theorem segmentsCover_star (t : String) (ts : List String) : segmentsCover ["*"] (t :: ts) := by
  simp [segmentsCover]

theorem segmentsCover_iff {ps ts : List String} : segmentsCover ps ts ↔ SegmentsCovered ps ts := by
  constructor
  · intro h
    fun_induction segmentsCover ps ts with
    | case1 ts =>
      obtain rfl := List.isEmpty_iff.1 h
      exact .done
    | case2 => cases h
    | case3 p t ts =>
      simp only [Bool.or_eq_true, Bool.and_eq_true, beq_iff_eq, List.isEmpty_iff] at h
      rcases h with rfl | ⟨rfl, rfl⟩
      · exact .rest t ts
      · exact .same p .done
    | case4 p q ps t ts ih =>
      simp only [Bool.and_eq_true, Bool.or_eq_true, beq_iff_eq] at h
      rcases h with ⟨rfl | rfl, h⟩
      · exact .any t (ih h)
      · exact .same p (ih h)
  · intro h
    induction h with
    | done => rfl
    | rest t ts => exact segmentsCover_star t ts
    | @any t ps ts h ih =>
      cases ps with
      | nil => exact segmentsCover_star t ts
      | cons p ps => simpa [segmentsCover] using ih
    | @same p ps ts h ih =>
      cases ps with
      | nil =>
        cases h
        simp [segmentsCover]
      | cons q ps => simpa [segmentsCover] using ih

variable {p q r : Permission}

theorem segments_ne_nil (p : Permission) : p.segments ≠ [] := by
  simpa [segments, Text.splitString] using Text.split_ne_nil ':' p.text.toList

theorem segments_of_isStar (h : p.isStar) : p.segments = ["*"] := by
  rw [isStar, beq_iff_eq] at h
  rw [segments, h]
  decide

/-- The star alone covers what its one segment covers. -/
theorem covers_eq_segmentsCover (p q : Permission) :
    p.covers q = segmentsCover p.segments q.segments := by
  rw [covers, Bool.or_eq_right_iff_imp]
  intro h
  rw [segments_of_isStar h]
  obtain ⟨t, ts, hts⟩ := List.exists_cons_of_ne_nil q.segments_ne_nil
  rw [hts]
  exact segmentsCover_star t ts

theorem covers_iff : p.covers q ↔ SegmentsCovered p.segments q.segments := by
  rw [covers_eq_segmentsCover, segmentsCover_iff]

theorem covers_refl (p : Permission) : p.covers p := covers_iff.2 (.refl _)

theorem covers_trans (hpq : p.covers q) (hqr : q.covers r) : p.covers r :=
  covers_iff.2 ((covers_iff.1 hpq).trans (covers_iff.1 hqr))

theorem text_eq_of_covers (hpq : p.covers q) (hqp : q.covers p) : p.text = q.text :=
  Text.splitString_inj ((covers_iff.1 hpq).antisymm (covers_iff.1 hqp))

/-! ### Permissions without stars -/

/-- The segments with `x` in the place of every star. -/
def fill (x : String) (ts : List String) : List String := ts.map fun t => if t = "*" then x else t

theorem covered_fill (x : String) : (ts : List String) → SegmentsCovered ts (fill x ts)
  | [] => .done
  | t :: ts => by
    rw [fill, List.map_cons]
    split
    · next h =>
      subst h
      exact .any x (covered_fill x ts)
    · exact .same t (covered_fill x ts)

/-- A pattern in which `x` does not occur covers it by a star only, and the star covers a star as
well. -/
theorem SegmentsCovered.of_fill {x : String} {ps ts : List String} (hx : x ∉ ps)
    (h : SegmentsCovered ps (fill x ts)) : SegmentsCovered ps ts := by
  induction ts generalizing ps with
  | nil => exact h
  | cons t ts ih =>
    rw [fill, List.map_cons] at h
    split at h
    · next ht =>
      subst ht
      cases h with
      | rest => exact .rest _ ts
      | any _ h => exact .any _ (ih (fun hmem => hx (List.mem_cons_of_mem _ hmem)) h)
      | same => exact absurd List.mem_cons_self hx
    · cases h with
      | rest => exact .rest t ts
      | any _ h => exact .any t (ih (fun hmem => hx (List.mem_cons_of_mem _ hmem)) h)
      | same _ h => exact .same t (ih (fun hmem => hx (List.mem_cons_of_mem _ hmem)) h)

/-- There are segments that no given one is equal to: longer ones. -/
theorem exists_fresh (ps : List String) : ∃ x : String, x ∉ "*" :: ps ∧ ':' ∉ x.toList := by
  refine ⟨String.ofList (List.replicate ((("*" :: ps).map String.length).sum + 1) 'x'), ?_, ?_⟩
  · intro hmem
    have hle := List.le_sum_of_mem (List.mem_map_of_mem (f := String.length) hmem)
    rw [String.length_ofList, List.length_replicate] at hle
    omega
  · rw [String.toList_ofList]
    exact fun hmem => absurd (List.eq_of_mem_replicate hmem) (by decide)

theorem exists_segments {ts : List String} (hne : ts ≠ []) (h : ∀ t ∈ ts, ':' ∉ t.toList) :
    ∃ r : Permission, r.segments = ts := by
  refine ⟨⟨String.ofList (Text.join ':' (ts.map String.toList))⟩, ?_⟩
  have hsplit : Text.split ':' (Text.join ':' (ts.map String.toList)) = ts.map String.toList :=
    Text.split_join (by simpa using hne) (by simpa using h)
  rw [segments, Text.splitString, String.toList_ofList, hsplit, List.map_map]
  simp

/-- To cover the permissions without stars that a pattern covers is to cover the pattern. -/
theorem covers_of_concrete (h : ∀ r : Permission, "*" ∉ r.segments → q.covers r → p.covers r) :
    p.covers q := by
  obtain ⟨x, hfresh, hcolon⟩ := exists_fresh p.segments
  obtain ⟨hstar, hx⟩ := not_or.1 (mt List.mem_cons.2 hfresh)
  obtain ⟨r, hr⟩ : ∃ r : Permission, r.segments = fill x q.segments := by
    refine exists_segments (by simpa [fill] using q.segments_ne_nil) fun t ht => ?_
    obtain ⟨s, hs, rfl⟩ := List.mem_map.1 ht
    split
    · exact hcolon
    · exact Text.not_mem_of_mem_splitString hs
  have hconcrete : "*" ∉ r.segments := by
    rw [hr]
    intro hmem
    obtain ⟨s, -, hs⟩ := List.mem_map.1 hmem
    split at hs
    · exact hstar hs
    · next hne => exact hne hs
  have hcovered := covers_iff.1 (h r hconcrete (covers_iff.2 (hr ▸ covered_fill x q.segments)))
  exact covers_iff.2 ((hr ▸ hcovered).of_fill hx)

/-- A permission covers another iff it covers all that the other covers, and all of it without stars
is enough. Coverage is a partial order of the texts, and for the star alone it is what the segments
say. -/
theorem coverage_is_inclusion (p q : Permission) :
    (p.covers q ↔ ∀ r : Permission, q.covers r → p.covers r) ∧
      (p.covers q ↔ ∀ r : Permission, "*" ∉ r.segments → q.covers r → p.covers r) ∧
      p.covers p ∧
      (∀ r : Permission, p.covers q → q.covers r → p.covers r) ∧
      (p.covers q → q.covers p → p.text = q.text) ∧
      p.covers q = segmentsCover p.segments q.segments :=
  ⟨⟨fun h _ hr => covers_trans h hr, fun h => h q (covers_refl q)⟩,
    ⟨fun h _ _ hr => covers_trans h hr, covers_of_concrete⟩, covers_refl p,
    fun _ => covers_trans, text_eq_of_covers, covers_eq_segmentsCover p q⟩

/-- A star at the end covers more than a star in the middle, which covers an empty segment. -/
theorem coverage_is_inclusion_documents :
    let all : Permission := ⟨"documents:*"⟩
    let drafts : Permission := ⟨"documents:*:drafts"⟩
    let own : Permission := ⟨"documents::drafts"⟩
    all.covers drafts = true ∧ drafts.covers own = true ∧ all.covers own = true ∧
      drafts.covers all = false := by
  intro all drafts own
  have hall : all.covers drafts = true := by decide
  have hdrafts : drafts.covers own = true := by decide
  exact ⟨hall, hdrafts, (coverage_is_inclusion all drafts).1.1 hall own hdrafts, by decide⟩

end AccessControl.Permission
