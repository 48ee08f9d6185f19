import AccessControl.Condition
import AccessControl.Proofs.Json.ReadBack
import AccessControl.Proofs.Number.Rounding

/-!
# Comparing whole numbers

Equality of whole numbers is exact, but their order is that of their doubles (`order?_int`). Of the
three conditions that one value is less than, equal to or greater than another, none holds but the
one that the order of the numbers calls for. That one holds (`whole_numbers_compared`) unless
different numbers have the same double, which they can have only beyond `2 ^ 53`: then none of the
three does (`neighbours_incomparable`).
-/

namespace AccessControl.Condition

open Json.Numeral (Exact)

/-- The condition that two operands are in this order. -/
def inOrder (x y : Operand) : Ordering → Condition
  | .lt => lessThan x y
  | .eq => equals x y
  | .gt => greaterThan x y

/-- The two whole numbers are rounded to one double. -/
def SameDouble (a b : Int) : Prop := (Binary64.ofInt a).value = (Binary64.ofInt b).value

variable {r : Request} {now : Instant} {x y : Operand} {a b : Int}

theorem natAbs_lt_of_exact (h : Exact a) : a.natAbs < 2 ^ 64 := by
  have hnegated : Json.Numeral.maxNegated = 2 ^ 63 := rfl
  have hsignificand : Json.Numeral.maxSignificand = 2 ^ 64 - 1 := rfl
  obtain ⟨hlow, hhigh⟩ := h
  omega

theorem sameDouble_iff (ha : Exact a) (hb : Exact b) :
    SameDouble a b ↔ Binary64.rounded a = Binary64.rounded b := by
  rw [SameDouble, Binary64.value_ofInt (natAbs_lt_of_exact ha),
    Binary64.value_ofInt (natAbs_lt_of_exact hb), Int.cast_inj]

/-- The order of two values is that of the numbers, or equality if their doubles are the same. -/
theorem order?_int (ha : Exact a) (hb : Exact b) {o : Ordering} :
    (Json.int a).order? (.int b) = some o ↔
      SameDouble a b ∧ o = .eq ∨ ¬SameDouble a b ∧ compare a b = o := by
  have hcmp := Binary64.cmp_ofInt (natAbs_lt_of_exact ha) (natAbs_lt_of_exact hb)
  rw [show (Json.int a).order? (.int b) = some _ from rfl, hcmp, sameDouble_iff ha hb]
  split
  · next h => simp [h, eq_comm]
  · next h => simp [h]

theorem holds_inOrder (hx : x.value? r = some (.int a)) (hy : y.value? r = some (.int b))
    (ha : Exact a) (hb : Exact b) (o : Ordering) :
    (inOrder x y o).holds r now ↔ compare a b = o ∧ (a = b ∨ ¬SameDouble a b) := by
  -- numbers that are in a strict order are not equal
  have hstrict (h : o ≠ .eq) : compare a b = o ∧ (a = b ∨ ¬SameDouble a b) ↔
      ¬SameDouble a b ∧ compare a b = o := by
    constructor
    · rintro ⟨rfl, rfl | hd⟩
      · exact absurd (compare_eq_iff_eq.2 rfl) h
      · exact ⟨hd, rfl⟩
    · rintro ⟨hd, ho⟩
      exact ⟨ho, .inr hd⟩
  cases o with
  | lt => simp [inOrder, holds, compareWith, hx, hy, order?_int ha hb, hstrict]
  | gt => simp [inOrder, holds, compareWith, hx, hy, order?_int ha hb, hstrict]
  | eq =>
    simp only [inOrder, holds, compareWith, hx, hy, Json.same, beq_iff_eq, compare_eq_iff_eq]
    exact ⟨fun h => ⟨h, .inl h⟩, fun h => h.1⟩

/-- Of the conditions that one of two whole numbers is less than, equal to or greater than the other,
exactly the one holds that is true of the numbers. Only if they are different and have the same
double, none does; both are `2 ^ 53` or more away from zero then, and at most 2048 from each
other. -/
theorem whole_numbers_compared (hx : x.value? r = some (.int a)) (hy : y.value? r = some (.int b))
    (ha : Exact a) (hb : Exact b) :
    (∀ o : Ordering, (inOrder x y o).holds r now ↔
      compare a b = o ∧ (a = b ∨ ¬SameDouble a b)) ∧
    (a ≠ b → SameDouble a b →
      2 ^ 53 ≤ a.natAbs ∧ 2 ^ 53 ≤ b.natAbs ∧ (a - b).natAbs ≤ 2048) := by
  refine ⟨holds_inOrder hx hy ha hb, fun hne hsame => ?_⟩
  exact Binary64.rounded_apart (natAbs_lt_of_exact ha) (natAbs_lt_of_exact hb) hne
    ((sameDouble_iff ha hb).1 hsame)

namespace Sample

/-- What is spent is one more than the limit. -/
def overspent : Request where
  identity := default
  resource := (Resource.new default "payments").withAttribute "limit" (.int 9007199254740992)
  action := "approve"
  context := .ofList [("spent", .int 9007199254740993)]

/-- The least and the greatest whole number of 64 bits are told apart. -/
theorem whole_numbers_compared_extremes :
    let least := Operand.literal (.int (-9223372036854775808))
    let greatest := Operand.literal (.int 18446744073709551615)
    (lessThan least greatest).holds overspent default = true := by
  intro least greatest
  have hleast : Exact (-9223372036854775808) := by decide
  have hgreatest : Exact 18446744073709551615 := by decide
  obtain ⟨horder, hsame⟩ :=
    @whole_numbers_compared overspent default least greatest _ _ rfl rfl hleast hgreatest
  refine (horder .lt).2 ⟨by decide, .inr fun h => ?_⟩
  have happart := hsame (by decide) h
  omega

/-- Two neighbours beyond `2 ^ 53` are not equal, and neither is less than the other. -/
theorem neighbours_incomparable :
    let spent := Operand.path "context.spent"
    let limit := Operand.path "resource.limit"
    spent.value? overspent = some (.int 9007199254740993) ∧
      limit.value? overspent = some (.int 9007199254740992) ∧
      (equals spent limit).holds overspent default = false ∧
      (lessThan spent limit).holds overspent default = false ∧
      (greaterThan spent limit).holds overspent default = false := by
  decide +kernel

end Sample

end AccessControl.Condition
