import AccessControl.Proofs.Json.RoundTrip
import AccessControl.Proofs.Token.Authenticity
import AccessControl.Token.Manager

/-!
# Signed values are read back

What a codec wrote for a caller's claims it decodes to these claims, with the times cut to whole
seconds (`decode_encode`). The claims stand in one object with the format's own fields; they do not
get in each other's way because no reserved key is a claim, and come back unchanged because no claim
is nested. The one thing that is asked of claims on reading and not on writing is the form of the
registered names `sub` and `nbf`: with another form (`registeredFit`) the value is malformed.
-/

namespace AccessControl

namespace Json

theorem canonicalItems_of_isScalar {items : List Json} (h : ∀ j ∈ items, j.isScalar) :
    canonicalItems items = items := by
  induction items with
  | nil => rfl
  | cons j js ih =>
    have hj : canonical j = j := by
      have hscalar := h j List.mem_cons_self
      cases j <;> first | rfl | exact absurd hscalar (by simp [isScalar])
    rw [canonicalItems, hj, ih fun i hi => h i (List.mem_cons_of_mem _ hi)]

theorem canonical_of_isFlat {j : Json} (h : j.isFlat) : j.canonical = j := by
  cases j with
  | arr items => rw [canonical, canonicalItems_of_isScalar (List.all_eq_true.1 h)]
  | obj fields => cases h
  | _ => rfl

theorem depthItems_of_isScalar {items : List Json} (h : ∀ j ∈ items, j.isScalar) :
    depthItems items = 0 := by
  induction items with
  | nil => rfl
  | cons j js ih =>
    have hj : depth j = 0 := by
      have hscalar := h j List.mem_cons_self
      cases j <;> first | rfl | exact absurd hscalar (by simp [isScalar])
    rw [depthItems, hj, ih fun i hi => h i (List.mem_cons_of_mem _ hi), Nat.max_self]

theorem depth_le_of_isFlat {j : Json} (h : j.isFlat) : j.depth ≤ 1 := by
  cases j with
  | arr items =>
    exact Nat.le_of_eq (congrArg Nat.succ (depthItems_of_isScalar (List.all_eq_true.1 h)))
  | obj fields => cases h
  | _ => exact Nat.zero_le 1

theorem depthFields_le {fields : List (String × Json)} {n : Nat} (h : ∀ f ∈ fields, f.2.depth ≤ n) :
    depthFields fields ≤ n := by
  induction fields with
  | nil => exact Nat.zero_le n
  | cons f fs ih =>
    exact Nat.max_le.2 ⟨h f List.mem_cons_self, ih fun g hg => h g (List.mem_cons_of_mem _ hg)⟩

theorem floatFreeFields_iff {fields : List (String × Json)} :
    floatFreeFields fields ↔ ∀ f ∈ fields, f.2.floatFree := by
  induction fields with
  | nil => simp [floatFreeFields]
  | cons f fs ih => simp [floatFreeFields, ih]

theorem exactFields_iff {fields : List (String × Json)} :
    exactFields fields ↔ ∀ f ∈ fields, f.2.exact := by
  induction fields with
  | nil => simp [exactFields]
  | cons f fs ih => simp [exactFields, ih]

theorem field?_append (l l' : List (String × Json)) (name : String) :
    (obj (l ++ l')).field? name = ((obj l).field? name).or ((obj l').field? name) := by
  rw [field?, field?, field?, List.find?_append]
  cases l.find? (·.1 = name) <;> rfl

end Json

namespace Claims

variable {c : Claims}

/-- Every whole number in the claims fits 64 bits. -/
def exact (c : Claims) : Bool := c.entries.values.all Json.exact

/-- Claims that are written and read without loss. -/
structure Plain (c : Claims) : Prop where
  unreserved : c.reservedKeys = []
  flat : c.nestedKeys = []
  floatFree : c.floatFree
  exact : c.exact

/-- The registered claims, as far as they are given, have the form that a reader of signed values
expects. -/
def registeredFit (c : Claims) : Bool :=
  (c.get? "sub").all SignedCodec.subjectFits && (c.get? "nbf").all SignedCodec.notBeforeFits

namespace Plain

variable {e : String × Json}

theorem not_mem_reserved (h : c.Plain) (he : e ∈ c.entries.toList) : e.1 ∉ reserved := by
  have hkey := List.filter_eq_nil_iff.1 h.unreserved e.1 (List.mem_map_of_mem he)
  simpa using hkey

theorem isFlat (h : c.Plain) (he : e ∈ c.entries.toList) : e.2.isFlat := by
  have hnested := List.filter_eq_nil_iff.1 (List.map_eq_nil_iff.1 h.flat) e he
  simpa using hnested

theorem floatFree_of_mem (h : c.Plain) (he : e ∈ c.entries.toList) : e.2.floatFree :=
  List.all_eq_true.1 h.floatFree e.2 (List.mem_map_of_mem he)

theorem exact_of_mem (h : c.Plain) (he : e ∈ c.entries.toList) : e.2.exact :=
  List.all_eq_true.1 h.exact e.2 (List.mem_map_of_mem he)

end Plain

/-- What passes the check names a subject and a scope, uses no reserved key, and is not nested. -/
theorem check_eq_ok : c.check = .ok () ↔
    c.subject?.isSome ∧ c.hasScope ∧ c.reservedKeys = [] ∧ c.nestedKeys = [] := by
  unfold check
  cases hsubject : c.subject? with
  | none => simp
  | some subject =>
    cases hscope : c.hasScope with
    | false => simp
    | true =>
      by_cases hreserved : c.reservedKeys = []
      · by_cases hnested : c.nestedKeys = [] <;> simp [hreserved, hnested]
      · simp [hreserved]

theorem complete_of_scope (hsubject : c.subject?.isSome) (hscope : c.hasScope) :
    ¬(c.tenant? = none ∨ c.app? = none ∨ c.subject? = none) := by
  rw [hasScope, Bool.and_eq_true] at hscope
  rintro (hnone | hnone | hnone)
  · rw [hnone] at hscope
    cases hscope.1
  · rw [hnone] at hscope
    cases hscope.2
  · rw [hnone] at hsubject
    cases hsubject

theorem complete_of_check (h : c.check = .ok ()) :
    ¬(c.tenant? = none ∨ c.app? = none ∨ c.subject? = none) :=
  let ⟨hsubject, hscope, _⟩ := check_eq_ok.1 h
  complete_of_scope hsubject hscope

theorem plain_of_check (h : c.check = .ok ()) (hfloat : c.floatFree) (hexact : c.exact) :
    c.Plain :=
  let ⟨_, _, hreserved, hnested⟩ := check_eq_ok.1 h
  ⟨hreserved, hnested, hfloat, hexact⟩

end Claims

/-- The details with the time of issue cut to the second. -/
def TokenDetails.inSeconds (d : TokenDetails) : TokenDetails :=
  { d with issuedAt := ⟨d.issuedAt.seconds, 0⟩ }

/-- Details that a signed value can carry: the identifier is not blank, and the times are those of a
clock after 1970 began, the expiry in whole seconds. -/
structure TokenDetails.Writable (d : TokenDetails) : Prop where
  named : Text.isBlank d.id.text = false
  issuedAt : Instant.minSeconds ≤ d.issuedAt.seconds ∧ d.issuedAt.seconds ≤ Instant.maxSeconds
  expiresAt : 0 ≤ d.expiresAt.seconds ∧ d.expiresAt.seconds ≤ Instant.maxSeconds
  whole : d.expiresAt.nanos = 0

namespace SignedCodec

variable {k : SignedCodec} {c : Claims} {d : TokenDetails}

/-! ### The payload as an object -/

/-- What the payload of a token says when it is read. -/
def written (k : SignedCodec) (c : Claims) (d : TokenDetails) : Payload :=
  ⟨d.id.text, d.issuedAt.seconds, d.expiresAt.seconds, k.issuer, k.audience, d.kind, c⟩

theorem mem_reserved_of_mem_ownFields {f : String × Json} (h : f ∈ k.ownFields d) :
    f.1 ∈ Claims.reserved := by
  have hname : f.1 ∈ (k.ownFields d).map (·.1) := List.mem_map_of_mem h
  exact hname

theorem field?_own {name : String} {j : Json}
    (h : (Json.obj (k.ownFields d)).field? name = some j) :
    (Json.obj (k.ownFields d ++ c.entries.toList)).field? name = some j := by
  rw [Json.field?_append, h, Option.some_or]

theorem field?_registered (k : SignedCodec) (c : Claims) (d : TokenDetails) {name : String}
    (h : name ∈ ["sub", "nbf"]) : (k.payload c d).field? name = c.get? name := by
  have hown : (Json.obj (k.ownFields d)).field? name = none := by
    simp only [List.mem_cons, List.not_mem_nil, or_false] at h
    rcases h with rfl | rfl <;> rfl
  rw [payload_eq, Json.field?_append, hown, Option.none_or]
  rfl

theorem once_reserved (hp : c.Plain) :
    Json.Once Claims.reserved (k.ownFields d ++ c.entries.toList) := by
  have hown : (k.ownFields d).filter (fun f => Claims.reserved.contains f.1) = k.ownFields d :=
    List.filter_eq_self.2 fun f hf => List.contains_iff_mem.2 (mem_reserved_of_mem_ownFields hf)
  have hclaims : c.entries.toList.filter (fun f => Claims.reserved.contains f.1) = [] :=
    List.filter_eq_nil_iff.2 fun f hf => by simpa using hp.not_mem_reserved hf
  rw [Json.Once, List.filter_append, hown, hclaims, List.append_nil]
  show Claims.reserved.Nodup
  decide

theorem once_registered (k : SignedCodec) (c : Claims) (d : TokenDetails) :
    Json.Once ["sub", "nbf"] (k.ownFields d ++ c.entries.toList) := by
  have hown : (k.ownFields d).filter (fun f => ["sub", "nbf"].contains f.1) = [] := rfl
  rw [Json.Once, List.filter_append, hown, List.nil_append]
  exact c.entries.nodup_keys.sublist (List.filter_sublist.map _)

theorem claims_payload (hp : c.Plain) :
    (⟨.ofList (((k.ownFields d ++ c.entries.toList).filter
      fun f => !Claims.reserved.contains f.1).map fun f => (f.1, f.2.canonical))⟩ : Claims) = c := by
  have hown : (k.ownFields d).filter (fun f => !Claims.reserved.contains f.1) = [] :=
    List.filter_eq_nil_iff.2 fun f hf => by simpa using mem_reserved_of_mem_ownFields hf
  have hclaims : c.entries.toList.filter (fun f => !Claims.reserved.contains f.1) =
      c.entries.toList :=
    List.filter_eq_self.2 fun f hf => by simpa using hp.not_mem_reserved hf
  have hflat : c.entries.toList.map (fun f => (f.1, f.2.canonical)) = c.entries.toList :=
    (List.map_congr_left fun f hf => by rw [Json.canonical_of_isFlat (hp.isFlat hf), id]).trans
      (List.map_id _)
  rw [List.filter_append, hown, hclaims, List.nil_append, hflat, SortedMap.ofList_toList]

theorem seconds?_int {n : Int} (hmin : Instant.minSeconds ≤ n) (hmax : n ≤ Instant.maxSeconds) :
    TokenSettings.seconds? (.int n) = some n := by
  have hlow : -TokenSettings.signedBound ≤ Instant.minSeconds := by decide
  have hhigh : Instant.maxSeconds ≤ TokenSettings.signedBound - 1 := by decide
  exact if_pos ⟨Int.le_trans hlow hmin, Int.le_trans hmax hhigh⟩

/-- The registered claims decide whether a payload can be read. -/
theorem payload?_payload (hp : c.Plain) (hd : d.Writable) :
    payload? (k.payload c d) = if c.registeredFit then some (k.written c d) else none := by
  have hsub := field?_registered k c d (by simp : "sub" ∈ ["sub", "nbf"])
  have hnbf := field?_registered k c d (by simp : "nbf" ∈ ["sub", "nbf"])
  split
  next hfit =>
    rw [Claims.registeredFit, Bool.and_eq_true, ← hsub, ← hnbf] at hfit
    have hissued := seconds?_int hd.issuedAt.1 hd.issuedAt.2
    have hexpires := seconds?_int (Int.le_trans (by decide) hd.expiresAt.1) hd.expiresAt.2
    have hof : (k.written c d).Of (k.ownFields d ++ c.entries.toList) :=
      { own := once_reserved hp
        registered := once_registered k c d
        subject := hfit.1
        notBefore := hfit.2
        id := field?_own rfl
        issuedAt := by rw [field?_own rfl]; exact hissued
        expiresAt := by rw [field?_own rfl]; exact hexpires
        issuer := field?_own rfl
        audience := field?_own rfl
        kind := by rw [field?_own rfl]; exact ofJson?_toJson d.kind
        claims := (claims_payload hp).symm }
    exact payload?_eq_some_iff.2 hof
  next hfit =>
    cases hread : payload? (k.payload c d) with
    | none => rfl
    | some p =>
      have hof := payload?_eq_some_iff.1 hread
      refine absurd ?_ hfit
      rw [Claims.registeredFit, Bool.and_eq_true, ← hsub, ← hnbf]
      exact ⟨hof.subject, hof.notBefore⟩

theorem ownFields_plain (hd : d.Writable) {f : String × Json} (hf : f ∈ k.ownFields d) :
    f.2.floatFree ∧ f.2.exact ∧ f.2.depth ≤ 1 := by
  have hissued := Json.Numeral.exact_of_seconds hd.issuedAt.1 hd.issuedAt.2
  have hexpires := Json.Numeral.exact_of_seconds (Int.le_trans (by decide) hd.expiresAt.1)
    hd.expiresAt.2
  simp only [ownFields, List.mem_cons, List.not_mem_nil, or_false] at hf
  rcases hf with rfl | rfl | rfl | rfl | rfl | rfl <;>
    simp [Json.floatFree, Json.exact, Json.depth, TokenKind.toJson, hissued, hexpires]

theorem read?_payload (hp : c.Plain) (hd : d.Writable) :
    Json.read? .whole Json.maxDepth (Json.chars (k.payload c d)) = some (k.payload c d) := by
  have hfield : ∀ f ∈ k.ownFields d ++ c.entries.toList,
      f.2.floatFree ∧ f.2.exact ∧ f.2.depth ≤ 1 := by
    intro f hf
    rcases List.mem_append.1 hf with hf | hf
    · exact ownFields_plain hd hf
    · exact ⟨hp.floatFree_of_mem hf, hp.exact_of_mem hf, Json.depth_le_of_isFlat (hp.isFlat hf)⟩
  rw [payload_eq]
  refine Json.read?_chars ?_ ?_ ?_
  · exact Json.floatFreeFields_iff.2 fun f hf => (hfield f hf).1
  · exact Json.exactFields_iff.2 fun f hf => (hfield f hf).2.1
  · have hdepth := Json.depthFields_le fun f hf => (hfield f hf).2.2
    exact Nat.le_trans (Nat.succ_le_succ hdepth) (by decide)

/-! ### Decoding -/

theorem decode_encode (hp : c.Plain) (hd : d.Writable) :
    k.decode (k.encode c d) =
      if c.registeredFit then .ok ⟨c, d.inSeconds⟩ else .error .malformed := by
  have hread : readPayload? (segment (k.payload c d)) =
      if c.registeredFit then some (k.written c d) else none := by
    rw [readPayload?, readSegment?_segment, read?_payload hp hd]
    exact payload?_payload hp hd
  have hepoch : ¬(k.written c d).expiresAt < 0 := Int.not_lt.2 hd.expiresAt.1
  have hverified : verified? (k.written c d) = some ⟨c, d.inSeconds⟩ := by
    refine verified?_eq_some_iff.2 ⟨?_, ?_, hd.named, rfl, rfl, rfl⟩
    · exact if_pos hd.issuedAt
    · have hmin : Instant.minSeconds ≤ d.expiresAt.seconds :=
        Int.le_trans (by decide) hd.expiresAt.1
      show Instant.ofSeconds? d.expiresAt.seconds = some d.expiresAt
      rw [Instant.ofSeconds?, if_pos ⟨hmin, hd.expiresAt.2⟩, ← hd.whole]
  cases hfit : c.registeredFit with
  | false =>
    rw [hfit] at hread
    simp [decode, parts?_encode, readHeader?_segment, hread]
    rfl
  | true =>
    have hissuer : (k.written c d).issuer = k.issuer := rfl
    have haudience : (k.written c d).audience = k.audience := rfl
    rw [hfit, if_pos rfl] at hread
    simp [decode, parts?_encode, readHeader?_segment, hread, hepoch, hissuer, haudience, hverified,
      pure, Except.pure]

end SignedCodec

end AccessControl
