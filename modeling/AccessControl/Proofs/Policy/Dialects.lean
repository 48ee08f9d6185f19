import AccessControl.Policy.Basic

/-!
# Policy conditions as conditions of rules

What a policy asks of the attributes of a request can be said in the language of rules: a reference
compares two paths, an array is a set of allowed values, and every other value is compared as it
stands (`Policy.expectation`). The translation changes nothing for any request
(`Policy.conditionsHold_eq`).
-/

namespace AccessControl.Policy

variable {q : Request} {now : Instant} {path other : String} {v : Json}

/-- What an expected value can be: a reference to a path, a set of values, or a value. -/
inductive Expectation : Json → Prop
  | reference (other : String) : Expectation (.str ("$" ++ other))
  | membership (items : List Json) : Expectation (.arr items)
  | literal {v : Json} (hreference : ∀ other, v ≠ .str ("$" ++ other))
      (hset : ∀ items, v ≠ .arr items) : Expectation v

theorem expectation (v : Json) : Expectation v := by
  cases v with
  | arr items => exact .membership items
  | str s =>
    by_cases h : ∃ other, s = "$" ++ other
    · obtain ⟨other, rfl⟩ := h
      exact .reference other
    · exact .literal (fun other hs => h ⟨other, Json.str.inj hs⟩) (by simp)
  | _ => exact .literal (by simp) (by simp)

/-- A text that is no reference does not begin with the dollar sign. -/
theorem toList_ne_of_not_reference {s : String} (h : ∀ other, Json.str s ≠ .str ("$" ++ other))
    (cs : List Char) : s.toList ≠ '$' :: cs := by
  intro hs
  refine h (String.ofList cs) (congrArg Json.str ?_)
  rw [← String.ofList_toList (s := s), hs]
  simp

/-! ### What is asked of one path -/

theorem conditionHolds_reference : conditionHolds q path (.str ("$" ++ other)) =
    Condition.compareWith q (.path path) (.path other) Json.same := by
  simp only [conditionHolds, Condition.compareWith, Operand.value?, String.toList_append]
  cases q.lookup path with
  | none => rfl
  | some v => cases h : q.lookup other <;> simp [h]

theorem conditionHolds_membership {items : List Json} : conditionHolds q path (.arr items) =
    Condition.compareWith q (.path path) (.literal (.arr items)) Json.memberOf := by
  simp only [conditionHolds, Condition.compareWith, Operand.value?]
  cases q.lookup path <;> rfl

theorem conditionHolds_literal (hreference : ∀ other, v ≠ .str ("$" ++ other))
    (hset : ∀ items, v ≠ .arr items) : conditionHolds q path v =
      Condition.compareWith q (.path path) (.literal v) Json.same := by
  simp only [conditionHolds, Condition.compareWith, Operand.value?]
  cases q.lookup path with
  | none => rfl
  | some actual =>
    cases v with
    | str s =>
      simp only
      split
      · next cs hs => exact absurd hs (toList_ne_of_not_reference hreference cs)
      · rfl
    | arr items => exact absurd rfl (hset items)
    | _ => rfl

/-! ### The translation -/

/-- The condition that a path has the expected value. -/
def entryCondition (path : String) (expected : Json) : Condition :=
  match expected with
  | .str s => match s.toList with
    | '$' :: other => .equals (.path path) (.path (String.ofList other))
    | _ => .equals (.path path) (.literal expected)
  | .arr _ => .within (.path path) (.literal expected)
  | _ => .equals (.path path) (.literal expected)

theorem entryCondition_reference :
    entryCondition path (.str ("$" ++ other)) = .equals (.path path) (.path other) := by
  simp [entryCondition]

theorem entryCondition_membership {items : List Json} :
    entryCondition path (.arr items) = .within (.path path) (.literal (.arr items)) := rfl

theorem entryCondition_literal (hreference : ∀ other, v ≠ .str ("$" ++ other))
    (hset : ∀ items, v ≠ .arr items) :
    entryCondition path v = .equals (.path path) (.literal v) := by
  cases v with
  | str s =>
    simp only [entryCondition]
    split
    · next cs hs => exact absurd hs (toList_ne_of_not_reference hreference cs)
    · rfl
  | arr items => exact absurd rfl (hset items)
  | _ => rfl

theorem conditionHolds_eq (q : Request) (now : Instant) (path : String) (expected : Json) :
    conditionHolds q path expected = (entryCondition path expected).holds q now := by
  rcases expectation expected with other | items | ⟨hreference, hset⟩
  · rw [conditionHolds_reference, entryCondition_reference, Condition.holds]
  · rw [conditionHolds_membership, entryCondition_membership, Condition.holds]
  · rw [conditionHolds_literal hreference hset, entryCondition_literal hreference hset,
      Condition.holds]

/-- The condition that all paths have their expected values. -/
def asCondition (conditions : SortedMap String Json) : Condition :=
  .all (conditions.toList.map fun e => entryCondition e.1 e.2)

/-- A policy's conditions and their translation hold of the same requests, at any time. -/
theorem conditionsHold_eq (q : Request) (now : Instant) (conditions : SortedMap String Json) :
    conditionsHold q conditions = (asCondition conditions).holds q now := by
  rw [asCondition, Condition.holds, Condition.allHold_eq_all, List.all_map, conditionsHold]
  exact List.all_congr rfl fun e => conditionHolds_eq q now e.1 e.2

/-- The conditions of a policy hold of a request iff all their translations do, at any time: a text
behind a dollar sign is another path, also the empty one, an array is a set, and every other value
is itself. -/
theorem dialects_agree (conditions : SortedMap String Json) (q : Request) (now : Instant) :
    conditionsHold q conditions =
      (Condition.all (conditions.toList.map fun e => entryCondition e.1 e.2)).holds q now ∧
    ∀ path,
      (∀ other, entryCondition path (.str ("$" ++ other)) = .equals (.path path) (.path other)) ∧
      (∀ items, entryCondition path (.arr items) =
        .within (.path path) (.literal (.arr items))) ∧
      ∀ v, (∀ other, v ≠ .str ("$" ++ other)) → (∀ items, v ≠ .arr items) →
        entryCondition path v = .equals (.path path) (.literal v) :=
  ⟨conditionsHold_eq q now conditions, fun _ => ⟨fun _ => entryCondition_reference,
    fun _ => entryCondition_membership, fun _ => entryCondition_literal⟩⟩

namespace Sample

/-- What the subject owns, in one of two departments, without a note. -/
def owned : SortedMap String Json :=
  .ofList [("resource.owner_id", .str "$subject.id"),
    ("subject.department", .arr [.str "legal", .str "finance"]), ("subject.note", .null)]

def ownRequest : Request where
  identity := .bare
    { (default : Subject) with
      id := ⟨"alice"⟩, attributes := .ofList [("department", .str "legal"), ("note", .null)] }
    default
  resource := (Resource.new default "documents").withAttribute "owner_id" (.str "alice")
  action := "write"
  context := .empty

theorem dialects_agree_owned :
    conditionsHold ownRequest owned = true ∧
      (Condition.all
        [.equals (.path "resource.owner_id") (.path "subject.id"),
          .within (.path "subject.department") (.literal (.arr [.str "legal", .str "finance"])),
          .equals (.path "subject.note") (.literal .null)]).holds ownRequest default = true := by
  obtain ⟨hagree, htranslated⟩ := dialects_agree owned ownRequest default
  have hentries : owned.toList.map (fun e => entryCondition e.1 e.2) =
      [.equals (.path "resource.owner_id") (.path "subject.id"),
        .within (.path "subject.department") (.literal (.arr [.str "legal", .str "finance"])),
        .equals (.path "subject.note") (.literal .null)] := by
    have howner := (htranslated "resource.owner_id").1 "subject.id"
    have hdepartment := (htranslated "subject.department").2.1 [.str "legal", .str "finance"]
    have hnote := (htranslated "subject.note").2.2 .null (by simp) (by simp)
    rw [← howner, ← hdepartment, ← hnote]
    rfl
  have hholds : conditionsHold ownRequest owned = true := by decide +kernel
  rw [hentries, hholds] at hagree
  exact ⟨hholds, hagree.symm⟩

end Sample

end AccessControl.Policy
