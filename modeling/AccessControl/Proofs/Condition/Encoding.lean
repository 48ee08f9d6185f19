import AccessControl.Rule
import AccessControl.Proofs.Json.RoundTrip

/-!
# Written conditions

A condition is written as JSON and read from it. An operand carries no tag: whether it is a path or
a literal is told from its shape, and a literal with a text in its field `attribute` has the shape
of a path (`Operand.Kept` is that an operand is not one of these). What is read is the written
condition with each operand so told (`ofJson?_toJson`), at any nesting. It is the written condition
itself if and only if every operand is kept (`reread_eq_self_iff`).
-/

namespace AccessControl

namespace Json

theorem natBelow?_int {bound n : Nat} (h : n < bound) : natBelow? bound (.int n) = some n := by
  rw [natBelow?, if_pos ⟨Int.natCast_nonneg n, Int.ofNat_lt.2 h⟩, Int.toNat_natCast]

theorem list?_map {α β : Type} {read : Json → Option β} {f : α → Json} {g : α → β} {l : List α}
    (h : ∀ a ∈ l, read (f a) = some (g a)) : list? read (.arr (l.map f)) = some (l.map g) := by
  rw [list?]
  induction l with
  | nil => rfl
  | cons a l ih =>
    have hrest := ih fun b hb => h b (List.mem_cons_of_mem _ hb)
    rw [List.map_cons, List.mapM_cons, h a List.mem_cons_self, hrest]
    rfl

theorem depth_le_of_mem {j : Json} {l : List Json} (h : j ∈ l) : j.depth ≤ depthItems l := by
  induction h with
  | head l => exact Nat.le_max_left _ _
  | tail i _ ih => exact Nat.le_trans ih (Nat.le_max_right _ _)

/-- An object without other fields than those of the record. -/
theorem record?_obj (names : List String) (fields : List (String × Json))
    (hnames : ∀ k ∈ fields.map (·.1), k ∈ names) (hnodup : (fields.map (·.1)).Nodup) :
    (obj fields).record? names = some ⟨fields, false⟩ := by
  have hknown : fields.filter (fun f => names.contains f.1) = fields :=
    List.filter_eq_self.2 fun f hf => List.contains_iff_mem.2 (hnames f.1 (List.mem_map_of_mem hf))
  rw [record?, hknown, if_pos hnodup]

theorem required_of_get? {α : Type} {r : Record} {name : String} {read : Json → Option α}
    {j : Json} {a : α} (hj : r.get? name = some j) (ha : read j = some a) :
    r.required read name = some a := by
  rw [Record.required, hj, Option.bind_some, ha]

theorem texts?_ofStrings (l : List String) : texts? (.ofStrings l) = some l := by
  have h : list? text? (arr (l.map str)) = some (l.map id) := list?_map fun _ _ => rfl
  rwa [List.map_id] at h

theorem Intact.ofStrings (l : List String) : (Json.ofStrings l).Intact :=
  .arr (by simp [Intact.str])

end Json

namespace Operand

/-- The operand that is read where this one was written. -/
def reread (o : Operand) : Operand := ofJson o.toJson

/-- A path, or a literal without the shape of one. -/
def Kept : Operand → Prop
  | path _ => True
  | literal v => ∀ p, v.field? "attribute" ≠ some (.str p)

theorem ofJson_of_field {v : Json} {p : String} (h : v.field? "attribute" = some (.str p)) :
    ofJson v = path p := by
  cases v with
  | obj fields => simp [ofJson, h, Json.str?]
  | _ => cases h

theorem ofJson_of_forall_ne {v : Json} (h : ∀ p, v.field? "attribute" ≠ some (.str p)) :
    ofJson v = literal v := by
  cases v with
  | obj fields =>
    have hnone : ((Json.obj fields).field? "attribute").bind Json.str? = none := by
      cases hf : (Json.obj fields).field? "attribute" with
      | none => rfl
      | some w =>
        cases w with
        | str p => exact absurd hf (h p)
        | _ => rfl
    simp [ofJson, hnone]
  | _ => rfl

theorem reread_eq_self_iff {o : Operand} : o.reread = o ↔ o.Kept := by
  cases o with
  | path p => exact iff_of_true (ofJson_of_field rfl) trivial
  | literal v =>
    constructor
    · intro h p hp
      rw [reread, toJson, ofJson_of_field hp] at h
      cases h
    · exact fun h => ofJson_of_forall_ne h

end Operand

namespace Condition

mutual

/-- The condition with other operands. -/
def mapOperands (f : Operand → Operand) : Condition → Condition
  | equals a b => equals (f a) (f b)
  | notEquals a b => notEquals (f a) (f b)
  | within v s => within (f v) (f s)
  | .exists p => .exists p
  | greaterThan a b => greaterThan (f a) (f b)
  | lessThan a b => lessThan (f a) (f b)
  | hourBetween start stop => hourBetween start stop
  | all cs => all (mapOperandsList f cs)
  | any cs => any (mapOperandsList f cs)
  | not c => not (mapOperands f c)

def mapOperandsList (f : Operand → Operand) : List Condition → List Condition
  | [] => []
  | c :: cs => mapOperands f c :: mapOperandsList f cs

end

theorem mapOperandsList_eq_map (f : Operand → Operand) (cs : List Condition) :
    mapOperandsList f cs = cs.map (mapOperands f) := by
  induction cs with
  | nil => rfl
  | cons c cs ih => rw [mapOperandsList, ih]; rfl

theorem toJsonList_eq_map (cs : List Condition) : toJsonList cs = cs.map toJson := by
  induction cs with
  | nil => rfl
  | cons c cs ih => rw [toJsonList, ih]; rfl

/-- All operands of the condition have the property, and the hours are within the bound. -/
inductive Over (P : Operand → Prop) : Condition → Prop
  | equals {a b : Operand} (ha : P a) (hb : P b) : Over P (.equals a b)
  | notEquals {a b : Operand} (ha : P a) (hb : P b) : Over P (.notEquals a b)
  | within {v s : Operand} (hv : P v) (hs : P s) : Over P (.within v s)
  | exists (p : String) : Over P (.exists p)
  | greaterThan {a b : Operand} (ha : P a) (hb : P b) : Over P (.greaterThan a b)
  | lessThan {a b : Operand} (ha : P a) (hb : P b) : Over P (.lessThan a b)
  | hourBetween {start stop : Nat} (hstart : start < hourBound) (hstop : stop < hourBound) :
    Over P (.hourBetween start stop)
  | all {cs : List Condition} (h : ∀ c ∈ cs, Over P c) : Over P (.all cs)
  | any {cs : List Condition} (h : ∀ c ∈ cs, Over P c) : Over P (.any cs)
  | not {c : Condition} (h : Over P c) : Over P (.not c)

/-- The condition with each operand as it is read where it was written. -/
def reread (c : Condition) : Condition := c.mapOperands Operand.reread

theorem reread_all (cs : List Condition) : (all cs).reread = all (cs.map reread) :=
  congrArg all (mapOperandsList_eq_map _ cs)

theorem reread_any (cs : List Condition) : (any cs).reread = any (cs.map reread) :=
  congrArg any (mapOperandsList_eq_map _ cs)

/-! ### Reading what was written -/

/-- An object with an operator, and no other fields than go with it, is read by that operator. -/
theorem read?_tagged (op : String) (front rest : List (String × Json)) (hop : op ∈ operators)
    (hnames : ∀ k ∈ (front ++ rest).map (·.1), k ≠ "op" ∧ k ∈ fieldNames op)
    (hnodup : ((front ++ rest).map (·.1)).Nodup) (n : Nat) (inner : Bool) :
    read? (n + 1) inner (.obj (front ++ ("op", .str op) :: rest)) =
      let r : Json.Record := ⟨front ++ rest, false⟩
      if op = "all" then (r.required (Json.list? (read? n true)) "conditions").map all
      else if op = "any" then (r.required (Json.list? (read? n true)) "conditions").map any
      else if op = "not" then (r.required (read? n true) "condition").map not
      else leafOfRecord? op r := by
  have hfront : ∀ f ∈ front, f.1 ≠ "op" := fun f hf =>
    (hnames f.1 (List.mem_map_of_mem (List.mem_append_left _ hf))).1
  have hrest : ∀ f ∈ rest, f.1 ≠ "op" := fun f hf =>
    (hnames f.1 (List.mem_map_of_mem (List.mem_append_right _ hf))).1
  have htag : tagged? inner (.obj (front ++ ("op", .str op) :: rest)) =
      some (op, .obj (front ++ rest)) := by
    have hfield : (Json.obj (front ++ ("op", .str op) :: rest)).field? "op" = some (.str op) := by
      rw [Json.field?, List.find?_append, List.find?_eq_none.2 (by simpa using hfront)]
      simp
    have hfilter : (front ++ ("op", .str op) :: rest).filter (·.1 ≠ "op") = front ++ rest := by
      rw [List.filter_append, List.filter_cons_of_neg (by simp),
        List.filter_eq_self.2 fun f hf => decide_eq_true (hfront f hf),
        List.filter_eq_self.2 fun f hf => decide_eq_true (hrest f hf)]
    simp only [tagged?, hfield, hfilter, operator?, Option.bind_eq_bind, Option.bind_some,
      List.contains_iff_mem.2 hop, if_true, Option.pure_def]
  have hrecord := Json.record?_obj (fieldNames op) (front ++ rest) (fun k hk => (hnames k hk).2)
    hnodup
  rw [read?, htag]
  simp only [Option.bind_eq_bind, Option.bind_some, hrecord, Option.map_eq_bind]
  rfl

theorem read?_comparison {op : String}
    (hop : op ∈ ["equals", "not_equals", "greater_than", "less_than"]) (a b : Operand) (n : Nat)
    (inner : Bool) :
    read? (n + 1) inner (comparison op a b) =
      leafOfRecord? op ⟨[("left", a.toJson), ("right", b.toJson)], false⟩ := by
  have hleaf : op ∈ operators ∧ fieldNames op = ["left", "right"] ∧ op ≠ "all" ∧ op ≠ "any" ∧
      op ≠ "not" := by
    revert op
    decide
  obtain ⟨hoperator, hnames, hall, hany, hnot⟩ := hleaf
  refine (read?_tagged op [("left", a.toJson)] [("right", b.toJson)] hoperator (by simp [hnames])
    (by simp) n inner).trans ?_
  simp only [if_neg hall, if_neg hany, if_neg hnot]
  rfl

variable {P : Operand → Prop} {c : Condition}

theorem required_conditions {op : String} {cs : List Condition} {n : Nat}
    (ih : ∀ c ∈ cs, ∀ {n : Nat} {inner : Bool}, c.toJson.depth ≤ n →
      read? (n + 1) inner c.toJson = some c.reread)
    (hn : (Json.obj [("conditions", .arr (toJsonList cs)), ("op", .str op)]).depth ≤ n) :
    Json.Record.required (Json.list? (read? n true)) ⟨[("conditions", .arr (toJsonList cs))], false⟩
      "conditions" = some (cs.map reread) := by
  have hdepth : (Json.obj [("conditions", .arr (toJsonList cs)), ("op", .str op)]).depth =
      Json.depthItems (toJsonList cs) + 2 := by
    simp [Json.depth, Json.depthFields]
  cases n with
  | zero => omega
  | succ n =>
    rw [toJsonList_eq_map] at hdepth hn ⊢
    refine Json.required_of_get? rfl (Json.list?_map fun c hc => ih c hc ?_)
    have hle := Json.depth_le_of_mem (List.mem_map_of_mem (f := toJson) hc)
    omega

/-- A written condition is read, operand by operand. The induction is over the condition; each level
of it takes one of the reader's calls and one level of nesting, or two, of the value. -/
theorem read?_toJson (hc : c.Over P) {n : Nat} {inner : Bool} (hn : c.toJson.depth ≤ n) :
    read? (n + 1) inner c.toJson = some c.reread := by
  induction hc generalizing n inner with
  | equals => exact read?_comparison (by decide) _ _ n inner
  | notEquals => exact read?_comparison (by decide) _ _ n inner
  | greaterThan => exact read?_comparison (by decide) _ _ n inner
  | lessThan => exact read?_comparison (by decide) _ _ n inner
  | @within v s =>
    exact read?_tagged "in" [] [("set", s.toJson), ("value", v.toJson)] (by decide)
      (by simp [fieldNames]) (by simp) n inner
  | «exists» p =>
    exact read?_tagged "exists" [("attribute", .str p)] [] (by decide) (by simp [fieldNames])
      (by simp) n inner
  | @hourBetween start stop hstart hstop =>
    refine (read?_tagged "hour_between" [("end", .int stop)] [("start", .int start)] (by decide)
      (by simp [fieldNames]) (by simp) n inner).trans ?_
    -- the bound is rewritten by name: unfolding it would count it down
    have hs := Json.required_of_get? (r := ⟨[("end", .int stop), ("start", .int start)], false⟩)
      (by rfl : Json.Record.get? _ "start" = _) (Json.natBelow?_int hstart)
    have he := Json.required_of_get? (r := ⟨[("end", .int stop), ("start", .int start)], false⟩)
      (by rfl : Json.Record.get? _ "end" = _) (Json.natBelow?_int hstop)
    simp [leafOfRecord?, hs, he, reread, mapOperands]
  | @all cs _ ih =>
    refine (read?_tagged "all" [("conditions", .arr (toJsonList cs))] [] (by decide)
      (by simp [fieldNames]) (by simp) n inner).trans ?_
    simp [required_conditions ih hn, reread_all]
  | @any cs _ ih =>
    refine (read?_tagged "any" [("conditions", .arr (toJsonList cs))] [] (by decide)
      (by simp [fieldNames]) (by simp) n inner).trans ?_
    simp [required_conditions ih hn, reread_any]
  | @not c _ ih =>
    refine (read?_tagged "not" [("condition", c.toJson)] [] (by decide) (by simp [fieldNames])
      (by simp) n inner).trans ?_
    have hdepth : c.not.toJson.depth = c.toJson.depth + 1 := by
      simp [toJson, Json.depth, Json.depthFields]
    cases n with
    | zero => omega
    | succ n =>
      have hread : read? (n + 1) true c.toJson = some c.reread := ih (by omega)
      simp [Json.Record.required, Json.Record.get?, hread, reread, mapOperands]

theorem ofJson?_toJson (hc : c.Over P) : ofJson? c.toJson = some c.reread :=
  read?_toJson hc (Nat.le_refl _)

/-! ### What rereading keeps -/

theorem reread_eq_of_over (hc : c.Over fun o => o.reread = o) : c.reread = c := by
  induction hc with
  | equals ha hb => simp only [reread, mapOperands, ha, hb]
  | notEquals ha hb => simp only [reread, mapOperands, ha, hb]
  | within hv hs => simp only [reread, mapOperands, hv, hs]
  | «exists» p => rfl
  | greaterThan ha hb => simp only [reread, mapOperands, ha, hb]
  | lessThan ha hb => simp only [reread, mapOperands, ha, hb]
  | hourBetween => rfl
  | all _ ih => rw [reread_all, List.map_congr_left ih, List.map_id']
  | any _ ih => rw [reread_any, List.map_congr_left ih, List.map_id']
  | not _ ih => exact congrArg Condition.not ih

theorem over_of_reread_eq (hc : c.Over P) (h : c.reread = c) : c.Over fun o => o.reread = o := by
  have hlist : ∀ {cs : List Condition}, cs.map reread = cs → ∀ c ∈ cs, c.reread = c := fun h =>
    List.map_inj_left.1 (h.trans (List.map_id' _).symm)
  induction hc with
  | equals =>
    simp only [reread, mapOperands, equals.injEq] at h
    exact .equals h.1 h.2
  | notEquals =>
    simp only [reread, mapOperands, notEquals.injEq] at h
    exact .notEquals h.1 h.2
  | within =>
    simp only [reread, mapOperands, within.injEq] at h
    exact .within h.1 h.2
  | «exists» p => exact .exists p
  | greaterThan =>
    simp only [reread, mapOperands, greaterThan.injEq] at h
    exact .greaterThan h.1 h.2
  | lessThan =>
    simp only [reread, mapOperands, lessThan.injEq] at h
    exact .lessThan h.1 h.2
  | hourBetween hstart hstop => exact .hourBetween hstart hstop
  | all _ ih =>
    rw [reread_all, all.injEq] at h
    exact .all fun c hc => ih c hc (hlist h c hc)
  | any _ ih =>
    rw [reread_any, any.injEq] at h
    exact .any fun c hc => ih c hc (hlist h c hc)
  | not _ ih => exact .not (ih (not.inj h))

theorem reread_eq_self_iff (hc : c.Over P) : c.reread = c ↔ c.Over Operand.Kept := by
  have hkept : Operand.Kept = fun o => o.reread = o :=
    funext fun o => propext Operand.reread_eq_self_iff.symm
  rw [hkept]
  exact ⟨over_of_reread_eq hc, reread_eq_of_over⟩

/-- A condition holds as before of a request for which its operands have the values that they had. -/
theorem holds_reread {q : Request} {now : Instant}
    (hc : c.Over fun o => o.reread.value? q = o.value? q) : c.reread.holds q now = c.holds q now := by
  induction hc with
  | equals ha hb => simp only [reread, mapOperands, holds, compareWith, ha, hb]
  | notEquals ha hb => simp only [reread, mapOperands, holds, compareWith, ha, hb]
  | within hv hs => simp only [reread, mapOperands, holds, compareWith, hv, hs]
  | «exists» p => rfl
  | greaterThan ha hb => simp only [reread, mapOperands, holds, compareWith, ha, hb]
  | lessThan ha hb => simp only [reread, mapOperands, holds, compareWith, ha, hb]
  | hourBetween => rfl
  | all _ ih =>
    rw [reread_all, holds, holds, allHold_eq_all, allHold_eq_all, List.all_map, Bool.eq_iff_iff,
      List.all_eq_true, List.all_eq_true]
    exact forall₂_congr fun c hc => iff_of_eq (congrArg (· = true) (ih c hc))
  | any _ ih =>
    rw [reread_any, holds, holds, anyHolds_eq_any, anyHolds_eq_any, List.any_map, Bool.eq_iff_iff,
      List.any_eq_true, List.any_eq_true]
    exact exists_congr fun c => and_congr_right fun hc => iff_of_eq (congrArg (· = true) (ih c hc))
  | not _ ih => exact congrArg Bool.not ih

/-! ### Texts -/

theorem comparison_intact {op : String} {a b : Operand} (ha : a.toJson.Intact)
    (hb : b.toJson.Intact) : (comparison op a b).Intact := by
  refine .obj (show SortedBy key ["left", "op", "right"] by decide) ?_
  simp [ha, hb, Json.Intact.str]

theorem hour_intact {n : Nat} (h : n < hourBound) : (Json.int n).Intact := by
  have hbound : hourBound ≤ Json.Numeral.maxSignificand := by decide
  exact .int ⟨by omega, by omega⟩

theorem conditions_intact {op : String} {cs : List Condition} (h : ∀ c ∈ cs, c.toJson.Intact) :
    (Json.obj [("conditions", .arr (toJsonList cs)), ("op", .str op)]).Intact := by
  have hitems : (Json.arr (toJsonList cs)).Intact := .arr (by simpa [toJsonList_eq_map] using h)
  refine .obj (show SortedBy key ["conditions", "op"] by decide) ?_
  simp [hitems, Json.Intact.str]

theorem toJson_intact (hc : c.Over fun o => o.toJson.Intact) : c.toJson.Intact := by
  induction hc with
  | equals ha hb => exact comparison_intact ha hb
  | notEquals ha hb => exact comparison_intact ha hb
  | within hv hs =>
    refine .obj (show SortedBy key ["op", "set", "value"] by decide) ?_
    simp [hv, hs, Json.Intact.str]
  | «exists» p =>
    refine .obj (show SortedBy key ["attribute", "op"] by decide) ?_
    simp [Json.Intact.str]
  | greaterThan ha hb => exact comparison_intact ha hb
  | lessThan ha hb => exact comparison_intact ha hb
  | hourBetween hstart hstop =>
    refine .obj (show SortedBy key ["end", "op", "start"] by decide) ?_
    simp [Json.Intact.str, hour_intact hstart, hour_intact hstop]
  | all _ ih => exact conditions_intact ih
  | any _ ih => exact conditions_intact ih
  | not _ ih =>
    refine .obj (show SortedBy key ["condition", "op"] by decide) ?_
    simp [ih, Json.Intact.str]

end Condition

namespace Rule

/-- The rule with its condition as it is read where it was written. -/
def reread (r : Rule) : Rule := { r with condition := r.condition.reread }

variable {r : Rule} {P : Operand → Prop}

theorem ofJson?_toJson (hr : r.condition.Over P) : ofJson? r.toJson = some r.reread := by
  have hrecord := Json.record?_obj ["name", "actions", "resource_types", "condition"]
    [("actions", .ofStrings r.actions), ("condition", r.condition.toJson), ("name", .str r.name),
      ("resource_types", .ofStrings r.resourceTypes)] (by simp) (by simp)
  rw [ofJson?, toJson, hrecord]
  simp [Json.Record.required, Json.Record.orElse, Json.Record.get?, Json.texts?_ofStrings,
    Json.text?, Json.str?, Condition.ofJson?_toJson hr, reread]

theorem toJson_intact (hr : r.condition.Over fun o => o.toJson.Intact) : r.toJson.Intact := by
  refine .obj (show SortedBy key ["actions", "condition", "name", "resource_types"] by decide) ?_
  simp [Json.Intact.ofStrings, Condition.toJson_intact hr, Json.Intact.str]

theorem reread_eq_self_iff (hr : r.condition.Over P) :
    r.reread = r ↔ r.condition.Over Operand.Kept := by
  rw [← Condition.reread_eq_self_iff hr]
  exact ⟨fun h => congrArg condition h, fun h => congrArg (fun c => { r with condition := c }) h⟩

/-- What is written for a rule or its condition is read, at any nesting, as the rule or condition
with each operand told from its shape, and so is the text of it where the literals are intact and
the reader goes as deep as the value. This is the rule itself if and only if no literal has the
shape of a path. It applies to the same requests, and holds as before of each request for which the
operands have the values that they had. -/
theorem written_and_read (r : Rule) (hr : r.condition.Over fun _ => True) :
    Condition.ofJson? r.condition.toJson = some r.condition.reread ∧
    ofJson? r.toJson = some r.reread ∧
    (r.condition.Over (fun o => o.toJson.Intact) → ∀ depth,
      (r.condition.toJson.depth ≤ depth →
        (Json.ofText? r.condition.toJson.text depth).bind Condition.ofJson? =
          some r.condition.reread) ∧
      (r.toJson.depth ≤ depth →
        (Json.ofText? r.toJson.text depth).bind ofJson? = some r.reread)) ∧
    (r.reread = r ↔ r.condition.Over Operand.Kept) ∧
    ∀ q, r.reread.appliesTo q = r.appliesTo q ∧
      (r.condition.Over (fun o => o.reread.value? q = o.value? q) →
        ∀ now, r.reread.holds q now = r.holds q now) := by
  have hcondition := Condition.ofJson?_toJson hr
  have hrule := ofJson?_toJson hr
  refine ⟨hcondition, hrule, fun hintact depth => ⟨fun hd => ?_, fun hd => ?_⟩,
    reread_eq_self_iff hr, fun q => ⟨rfl, fun hvalues now => Condition.holds_reread hvalues⟩⟩
  · rw [(Condition.toJson_intact hintact).ofText?_text hd, Option.bind_some, hcondition]
  · rw [(toJson_intact hintact).ofText?_text hd, Option.bind_some, hrule]

namespace Sample

/-- At night, whoever acts for nobody else may read. -/
def nightly : Rule := Rule.new "nightly" (.all [
  .within (.path "action") (.literal (.arr [.str "read", .null])),
  .hourBetween 22 6,
  .not (.exists "context.impersonating")])

theorem nightly_over {P : Operand → Prop} (haction : P (.path "action"))
    (hset : P (.literal (.arr [.str "read", .null]))) : nightly.condition.Over P := by
  refine .all fun c hc => ?_
  simp only [List.mem_cons, List.not_mem_nil, or_false] at hc
  rcases hc with rfl | rfl | rfl
  · exact .within haction hset
  · exact .hourBetween (by decide) (by decide)
  · exact .not (.exists _)

theorem written_and_read_nightly :
    nightly.condition.Over (fun _ => True) ∧ ofJson? nightly.toJson = some nightly ∧
      (Json.ofText? nightly.toJson.text Json.maxDepth).bind ofJson? = some nightly := by
  have hover : nightly.condition.Over fun _ => True := nightly_over trivial trivial
  have hkept : nightly.condition.Over Operand.Kept :=
    nightly_over trivial fun p hp => nomatch hp
  have hintact : nightly.condition.Over fun o => o.toJson.Intact := by
    refine nightly_over (.obj (show SortedBy key ["attribute"] by decide) ?_) (.arr ?_)
    · simp [Json.Intact.str]
    · simp only [List.mem_cons, List.not_mem_nil, or_false]
      rintro j (rfl | rfl)
      · exact .str "read"
      · exact ⟨rfl, trivial⟩
  obtain ⟨-, hrule, htext, hsame, -⟩ := written_and_read nightly hover
  rw [hsame.2 hkept] at hrule
  rw [hsame.2 hkept] at htext
  exact ⟨hover, hrule, (htext hintact Json.maxDepth).2 (by decide)⟩

/-- The subject's identifier is this object, which no identifier is. -/
def lookalike : Rule := Rule.new "lookalike" (.equals (.path "subject.id")
  (.literal (.obj [("attribute", .str "subject.id"), ("note", .str "x")])))

theorem literal_read_as_path :
    (∀ q now, lookalike.holds q now = false) ∧
      ∃ r, ofJson? lookalike.toJson = some r ∧ ∀ q now, r.holds q now = true := by
  have hid (q : Request) : q.lookup "subject.id" = some (.str q.identity.subject.id.text) := by
    rfl
  have hover : lookalike.condition.Over fun _ => True := .equals trivial trivial
  refine ⟨fun q now => ?_, lookalike.reread, ofJson?_toJson hover, fun q now => ?_⟩
  · simp [holds, lookalike, Rule.new, Condition.holds, Condition.compareWith, Operand.value?, hid,
      Json.same]
  · have hreread : lookalike.reread.condition =
        .equals (.path "subject.id") (.path "subject.id") := rfl
    simp [holds, hreread, Condition.holds, Condition.compareWith, Operand.value?, hid, Json.same]

end Sample

end Rule

end AccessControl
