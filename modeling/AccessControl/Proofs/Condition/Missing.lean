import AccessControl.Proofs.Json.Sameness
import AccessControl.Proofs.Policy.Dialects
import AccessControl.Proofs.Request.Paths

/-!
# Missing attributes

A request is poorer than another if each of its paths leads to the same value in the other. A
condition without negation that holds of a poorer request holds of the richer one (`Positive.mono`),
so it can only lose by what is missing. Taking attributes away makes a request poorer
(`Request.Fewer.poorer`), with one exception. A claim hides the profile field of its name, so the
field comes to light when the claim alone is taken away, and a condition can come true by that
(`holds_uncovered`).
-/

namespace AccessControl

namespace Request

/-- Where a path leads in the first request, it leads to the same value in the second. -/
def Poorer (r r' : Request) : Prop :=
  ∀ path v, r.lookup path = some v → ∃ w, r'.lookup path = some w ∧ v.same w

/-- The request with other claims, profile, attributes of the resource, and context. -/
def withAttributes (r : Request) (claims profile resource context : SortedMap String Json) :
    Request where
  identity := { r.identity with
    subject := { r.identity.subject with attributes := claims }, profile }
  resource := { r.resource with attributes := resource }
  action := r.action
  context

/-- The attributes are among those of the request. A claim that hides another value in the profile
is left out only if the field of the profile is left out too. -/
structure Fewer (r : Request) (claims profile resource context : SortedMap String Json) : Prop where
  hidden : ∀ k v w, claims.get? k = none → profile.get? k = some v →
    r.identity.subject.attributes.get? k = some w → v.same w
  claims : ∀ k v, claims.get? k = some v → r.identity.subject.attributes.get? k = some v
  profile : ∀ k v, profile.get? k = some v → r.identity.profile.get? k = some v
  resource : ∀ k v, resource.get? k = some v → r.resource.attributes.get? k = some v
  context : ∀ k v, context.get? k = some v → r.context.get? k = some v

theorem descend_same {a b v : Json} {names : List String} (h : a.same b)
    (hv : descend a names = some v) : ∃ w, descend b names = some w ∧ v.same w := by
  induction names generalizing a b with
  | nil =>
    cases hv
    exact ⟨b, rfl, h⟩
  | cons k ks ih =>
    rw [descend] at hv
    cases hfield : a.field? k with
    | none =>
      rw [hfield] at hv
      cases hv
    | some x =>
      rw [hfield] at hv
      obtain ⟨y, hy, hxy⟩ := Json.field?_same h hfield
      obtain ⟨w, hw, hvw⟩ := ih hxy hv
      exact ⟨w, by rw [descend, hy]; exact hw, hvw⟩

namespace Fewer

variable {r : Request} {claims profile resource context : SortedMap String Json}
  {root name : String} {v : Json}

theorem subjectAttribute? (h : r.Fewer claims profile resource context)
    (hv : Request.subjectAttribute?
      (r.withAttributes claims profile resource context).identity name = some v) :
    ∃ w, Request.subjectAttribute? r.identity name = some w ∧ v.same w := by
  simp only [Request.subjectAttribute?, withAttributes] at hv ⊢
  cases hclaim : claims.get? name with
  | some x =>
    rw [hclaim] at hv
    rw [h.claims name x hclaim]
    exact ⟨v, hv, v.same_refl⟩
  | none =>
    rw [hclaim] at hv
    have hfield : profile.get? name = some v := hv
    cases hhides : r.identity.subject.attributes.get? name with
    | some w => exact ⟨w, rfl, h.hidden name v w hclaim hfield hhides⟩
    | none => exact ⟨v, h.profile name v hfield, v.same_refl⟩

theorem attribute? (h : r.Fewer claims profile resource context)
    (hv : (r.withAttributes claims profile resource context).attribute? root name = some v) :
    ∃ w, r.attribute? root name = some w ∧ v.same w := by
  unfold Request.attribute? at hv ⊢
  split at hv
  next hroot =>
    rw [if_pos hroot]
    exact h.subjectAttribute? hv
  next hsubject =>
    rw [if_neg hsubject]
    split at hv
    next hroot => exact ⟨v, by rw [if_pos hroot]; exact h.resource name v hv, v.same_refl⟩
    next hresource =>
      rw [if_neg hresource]
      split at hv
      next hroot => exact ⟨v, by rw [if_pos hroot]; exact h.context name v hv, v.same_refl⟩
      · cases hv

end Fewer

section

variable {r : Request} {claims profile resource context : SortedMap String Json}

/-- What a subject and a resource have of themselves is not taken away. -/
theorem lookupNames_builtIn {root name : String} (h : IsBuiltIn root name) :
    (r.withAttributes claims profile resource context).lookupNames [root, name] =
      r.lookupNames [root, name] := by
  rcases h with ⟨rfl, hname⟩ | ⟨rfl, hname⟩
  · obtain ⟨v, hv⟩ := Option.ne_none_iff_exists'.1
      (mt (subjectBuiltIn?_eq_none (i := r.identity)).1 (not_not_intro hname))
    have hv' : subjectBuiltIn? (r.withAttributes claims profile resource context).identity name =
        some v := hv
    simp only [lookupNames, hv, hv']
  · obtain ⟨v, hv⟩ := Option.ne_none_iff_exists'.1
      (mt (resourceBuiltIn?_eq_none (s := r.resource)).1 (not_not_intro hname))
    have hv' : resourceBuiltIn? (r.withAttributes claims profile resource context).resource name =
        some v := hv
    simp only [lookupNames, hv, hv']

theorem Fewer.lookupNames (h : r.Fewer claims profile resource context) {names : List String}
    {v : Json}
    (hv : (r.withAttributes claims profile resource context).lookupNames names = some v) :
    ∃ w, r.lookupNames names = some w ∧ v.same w := by
  rcases names with _ | ⟨root, _ | ⟨name, rest⟩⟩
  · cases hv
  · have hsingle (q : Request) :
        q.lookupNames [root] = if root = "action" then some (.str q.action) else none := by
      by_cases haction : root = "action" <;> simp [Request.lookupNames, haction]
    rw [hsingle] at hv ⊢
    exact ⟨v, hv, v.same_refl⟩
  · by_cases hbuiltIn : rest = [] ∧ IsBuiltIn root name
    · obtain ⟨rfl, hname⟩ := hbuiltIn
      exact ⟨v, lookupNames_builtIn hname ▸ hv, v.same_refl⟩
    · have hplain : rest = [] → ¬IsBuiltIn root name := fun hnil hname => hbuiltIn ⟨hnil, hname⟩
      rw [lookupNames_cons hplain] at hv ⊢
      obtain ⟨x, hx, hdescend⟩ := Option.bind_eq_some_iff.1 hv
      obtain ⟨y, hy, hxy⟩ := h.attribute? hx
      rw [hy]
      exact descend_same hxy hdescend

/-- With fewer attributes a request is poorer. -/
theorem Fewer.poorer (h : r.Fewer claims profile resource context) :
    (r.withAttributes claims profile resource context).Poorer r :=
  fun _ _ hv => h.lookupNames hv

end

end Request

namespace Condition

/-- A condition without negation. -/
inductive Positive : Condition → Prop
  | equals (left right : Operand) : Positive (.equals left right)
  | notEquals (left right : Operand) : Positive (.notEquals left right)
  | within (value set : Operand) : Positive (.within value set)
  | exists (path : String) : Positive (.exists path)
  | greaterThan (left right : Operand) : Positive (.greaterThan left right)
  | lessThan (left right : Operand) : Positive (.lessThan left right)
  | hourBetween (start stop : Nat) : Positive (.hourBetween start stop)
  | all {conditions : List Condition} (h : ∀ c ∈ conditions, Positive c) :
    Positive (.all conditions)
  | any {conditions : List Condition} (h : ∀ c ∈ conditions, Positive c) :
    Positive (.any conditions)

variable {r r' : Request} {now : Instant}

theorem value?_mono (h : r.Poorer r') {o : Operand} {v : Json} (hv : o.value? r = some v) :
    ∃ w, o.value? r' = some w ∧ v.same w := by
  cases o with
  | path p => exact h p v hv
  | literal j => exact ⟨v, hv, v.same_refl⟩

/-- A comparison that does not tell apart what is the same is kept where more is known. -/
theorem compareWith_mono (h : r.Poorer r') {left right : Operand} {p : Json → Json → Bool}
    (hp : ∀ {a b x y : Json}, a.same b → x.same y → p a x = p b y)
    (hholds : compareWith r left right p) : compareWith r' left right p := by
  unfold compareWith at hholds
  split at hholds
  · next a x ha hx =>
    obtain ⟨b, hb, hab⟩ := value?_mono h ha
    obtain ⟨y, hy, hxy⟩ := value?_mono h hx
    rw [compareWith, hb, hy]
    exact (hp hab hxy).symm.trans hholds
  · cases hholds

/-- What holds without negation keeps holding where more is known. -/
theorem Positive.mono (h : r.Poorer r') {c : Condition} (hc : c.Positive) (hholds : c.holds r now) :
    c.holds r' now := by
  induction hc with
  | equals left right => exact compareWith_mono h Json.same_same hholds
  | notEquals left right =>
    exact compareWith_mono h (fun hab hxy => by rw [Json.same_same hab hxy]) hholds
  | within value set => exact compareWith_mono h Json.memberOf_same hholds
  | «exists» path =>
    rw [holds] at hholds ⊢
    cases hv : r.lookup path with
    | none => simp [hv] at hholds
    | some v =>
      obtain ⟨w, hw, hsame⟩ := h path v hv
      simpa [hv, hw, Json.isNull_same hsame] using hholds
  | greaterThan left right =>
    exact compareWith_mono h (fun hab hxy => by rw [Json.order?_same hab hxy]) hholds
  | lessThan left right =>
    exact compareWith_mono h (fun hab hxy => by rw [Json.order?_same hab hxy]) hholds
  | hourBetween start stop => exact hholds
  | all _ ih =>
    rw [holds, allHold_eq_all, List.all_eq_true] at hholds ⊢
    exact fun c hc => ih c hc (hholds c hc)
  | any _ ih =>
    rw [holds, anyHolds_eq_any, List.any_eq_true] at hholds ⊢
    obtain ⟨c, hc, hcholds⟩ := hholds
    exact ⟨c, hc, ih c hc hcholds⟩

end Condition

namespace Policy

theorem positive_entryCondition (path : String) (expected : Json) :
    (entryCondition path expected).Positive := by
  rcases expectation expected with other | items | ⟨hreference, hset⟩
  · rw [entryCondition_reference]
    exact .equals _ _
  · rw [entryCondition_membership]
    exact .within _ _
  · rw [entryCondition_literal hreference hset]
    exact .equals _ _

theorem positive_asCondition (conditions : SortedMap String Json) :
    (asCondition conditions).Positive := by
  refine .all fun c hc => ?_
  obtain ⟨e, -, rfl⟩ := List.mem_map.1 hc
  exact positive_entryCondition e.1 e.2

end Policy

namespace Condition

variable {r : Request} {name : String} {v w : Json}

/-- A profile field that a claim hides comes to light when the claim alone is taken away. If it is
another value, a condition without negation comes true by that. -/
theorem holds_uncovered (hname : name ∉ Request.subjectBuiltIns) (hdot : '.' ∉ name.toList)
    (hclaim : r.identity.subject.attributes.get? name = some w)
    (hfield : r.identity.profile.get? name = some v) (hother : ¬w.same v) (now : Instant) :
    let c := equals (.path ("subject." ++ name)) (.literal v)
    c.Positive ∧ c.holds r now = false ∧
      c.holds (r.withAttributes (r.identity.subject.attributes.erase name) r.identity.profile
        r.resource.attributes r.context) now = true := by
  have hplain : ¬Request.IsBuiltIn "subject" name := by
    rintro (⟨-, hmem⟩ | ⟨hroot, -⟩)
    · exact hname hmem
    · exact absurd hroot (by decide)
  have hpath : "subject." ++ name = "subject" ++ "." ++ name := rfl
  have hlookup (q : Request) :
      q.lookup ("subject." ++ name) = Request.subjectAttribute? q.identity name := by
    rw [hpath, q.lookup_attribute hplain (by decide) hdot]
    rfl
  have hhidden : Request.subjectAttribute? r.identity name = some w := by
    rw [Request.subjectAttribute?, hclaim]
    rfl
  have huncovered : Request.subjectAttribute? (r.withAttributes
      (r.identity.subject.attributes.erase name) r.identity.profile r.resource.attributes
      r.context).identity name = some v := by
    simp only [Request.subjectAttribute?, Request.withAttributes, SortedMap.get?_erase, if_true,
      hfield]
    rfl
  refine ⟨.equals _ _, ?_, ?_⟩
  · simp only [holds, compareWith, Operand.value?, hlookup, hhidden, hother]
  · simp only [holds, compareWith, Operand.value?, hlookup, huncovered, v.same_refl]

/-- Of a poorer request no condition without negation holds that does not hold of the richer one, at
any time, and no conditions of a policy do. So taking attributes away makes none of them come true,
apart from the requests that `Request.Fewer` leaves out: there a claim is missing while a profile
field of its name, which the claim hid and which is another value, is still there. -/
theorem missing_never_helps :
    (∀ r r' : Request, r.Poorer r' →
      (∀ (c : Condition) (now : Instant), c.Positive → c.holds r now → c.holds r' now) ∧
      ∀ conditions, Policy.conditionsHold r conditions → Policy.conditionsHold r' conditions) ∧
    ∀ (r : Request) (claims profile resource context : SortedMap String Json),
      r.Fewer claims profile resource context →
      let fewer := r.withAttributes claims profile resource context
      fewer.Poorer r ∧
      (∀ (c : Condition) (now : Instant), c.Positive → c.holds fewer now → c.holds r now) ∧
      ∀ conditions,
        Policy.conditionsHold fewer conditions → Policy.conditionsHold r conditions := by
  have hpoorer : ∀ r r' : Request, r.Poorer r' →
      (∀ (c : Condition) (now : Instant), c.Positive → c.holds r now → c.holds r' now) ∧
      ∀ conditions, Policy.conditionsHold r conditions → Policy.conditionsHold r' conditions := by
    intro r r' h
    refine ⟨fun c now hc => hc.mono h, fun conditions hholds => ?_⟩
    rw [Policy.conditionsHold_eq _ default] at hholds ⊢
    exact (Policy.positive_asCondition conditions).mono h hholds
  exact ⟨hpoorer, fun r claims profile resource context h =>
    ⟨h.poorer, hpoorer _ _ h.poorer⟩⟩

namespace Sample

/-- A subject asks for a document of its own. Two claims hide fields of its profile, one of them
another value. -/
def rich : Request where
  identity := { Identity.bare
    { (default : Subject) with
      id := ⟨"alice"⟩
      attributes := .ofList [("department", .str "sales"), ("floor", .int 3)] } default with
    profile := .ofList [("department", .str "legal"), ("floor", .int 3)] }
  resource := (Resource.new default "documents").withAttribute "owner_id" (.str "alice")
  action := "read"
  context := .ofList [("score", .float (.ofInt 2))]

/-- Without the claim that is the same in the profile, and without the owner of the document. -/
def poor : Request :=
  rich.withAttributes (rich.identity.subject.attributes.erase "floor") rich.identity.profile .empty
    rich.context

/-- The document is not marked as somebody else's, or the subject works on the third floor. -/
def notForeign : Condition :=
  .any [.notEquals (.path "resource.owner_id") (.literal (.str "bob")),
    .equals (.path "subject.floor") (.literal (.int 3))]

/-- On the third floor a subject reads and writes what is its tenant's. -/
def ownTenant : SortedMap String Json :=
  .ofList [("action", .arr [.str "read", .str "write"]), ("subject.floor", .int 3),
    ("subject.tenant_id", .str "$resource.tenant_id")]

theorem fewer_poor : rich.Fewer (rich.identity.subject.attributes.erase "floor")
    rich.identity.profile .empty rich.context where
  hidden k v w hk hv hw := by
    rw [SortedMap.get?_erase] at hk
    split at hk
    next hname =>
      subst hname
      obtain rfl : Json.int 3 = v := Option.some.inj hv
      obtain rfl : Json.int 3 = w := Option.some.inj hw
      rfl
    · rw [hk] at hw
      cases hw
  claims k v hv := by
    rw [SortedMap.get?_erase] at hv
    split at hv
    · cases hv
    · exact hv
  profile _ _ hv := hv
  resource _ _ hv := by cases hv
  context _ _ hv := hv

theorem missing_never_helps_poor :
    poor.Poorer rich ∧
      (notForeign.Positive ∧ notForeign.holds poor default = true ∧
        notForeign.holds rich default = true) ∧
      Policy.conditionsHold poor ownTenant = true ∧
      Policy.conditionsHold rich ownTenant = true := by
  have hpositive : notForeign.Positive := by
    refine .any fun c hc => ?_
    rcases List.mem_cons.1 hc with rfl | hc
    · exact .notEquals _ _
    · rw [List.mem_singleton.1 hc]
      exact .equals _ _
  have hholds : notForeign.holds poor default = true := by decide +kernel
  have hown : Policy.conditionsHold poor ownTenant = true := by decide +kernel
  obtain ⟨hpoorer, hkept, hkeptAll⟩ := missing_never_helps.2 rich _ _ _ _ fewer_poor
  exact ⟨hpoorer, ⟨hpositive, hholds, hkept notForeign default hpositive hholds⟩, hown,
    hkeptAll ownTenant hown⟩

/-- Taking one claim away makes a condition without negation come true: the subject's department is
then read from its profile. -/
theorem uncovered_field :
    let c := equals (.path "subject.department") (.literal (.str "legal"))
    c.Positive ∧ c.holds rich default = false ∧
      c.holds (rich.withAttributes (rich.identity.subject.attributes.erase "department")
        rich.identity.profile rich.resource.attributes rich.context) default = true :=
  @holds_uncovered rich "department" (.str "legal") (.str "sales") (by decide) (by decide) rfl rfl
    (by decide) default

end Sample

end Condition

end AccessControl
