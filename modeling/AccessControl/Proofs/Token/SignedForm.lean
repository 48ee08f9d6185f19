import AccessControl.Proofs.Json.ReadBack
import AccessControl.Token.Signed

/-!
# What a signed value decodes to

`decode_ok` lists the checks that a value passed when it decodes. A value that was written for some
details decodes, if at all, to these details (`details_of_decode_encode`): whatever the claims are,
the fields of the format stand in front of them and cannot be repeated.
-/

namespace AccessControl

namespace Json

theorem get?_record? {names : List String} {fields : List (String × Json)} {r : Record}
    (h : (obj fields).record? names = some r) {name : String} (hn : name ∈ names) :
    r.get? name = (obj fields).field? name := by
  simp only [record?] at h
  split at h
  · obtain rfl := Option.some.inj h
    have hfind : (fields.filter fun f => names.contains f.1).find? (·.1 = name) =
        fields.find? (·.1 = name) := by
      rw [List.find?_filter]
      congr 1
      funext f
      by_cases hf : f.1 = name <;> simp [hf, hn]
    rw [Record.get?, hfind, field?]
  · cases h

theorem required_record? {names : List String} {fields : List (String × Json)} {r : Record}
    (h : (obj fields).record? names = some r) {name : String} (hn : name ∈ names) {α : Type}
    (read : Json → Option α) : r.required read name = ((obj fields).field? name).bind read := by
  rw [Record.required, get?_record? h hn]

/-- None of the names stands twice among the fields of an object. -/
def Once (names : List String) (fields : List (String × Json)) : Prop :=
  ((fields.filter fun f => names.contains f.1).map (·.1)).Nodup

theorem record?_isSome_iff {names : List String} {fields : List (String × Json)} :
    ((obj fields).record? names).isSome ↔ Once names fields := by
  unfold record? Once
  simp only
  split
  · next h => exact iff_of_true rfl h
  · next h => exact iff_of_false (by simp) h

/-- The seconds of every representable time fit 64 bits. -/
theorem Numeral.exact_of_seconds {n : Int} (hmin : Instant.minSeconds ≤ n)
    (hmax : n ≤ Instant.maxSeconds) : Numeral.Exact n := by
  have hlow : -(maxNegated : Int) ≤ Instant.minSeconds := by decide
  have hhigh : Instant.maxSeconds ≤ (maxSignificand : Int) := by decide
  exact ⟨Int.le_trans hlow hmin, Int.le_trans hmax hhigh⟩

end Json

namespace Base64Url

theorem letter_ne_dot (n : Nat) : letter n ≠ '.' := by
  by_cases h : n < 64
  · have hall : ∀ n < 64, letter n ≠ '.' := by decide
    exact hall n h
  · have : letter n = '_' := by
      unfold letter
      rw [if_neg (by omega), if_neg (by omega), if_neg (by omega), if_neg (by omega)]
    rw [this]
    decide

theorem dot_not_mem_encode (bs : List UInt8) : '.' ∉ encode bs := by
  fun_induction encode bs <;> simp_all [(letter_ne_dot _).symm]

end Base64Url

namespace SignedCodec

variable {k : SignedCodec} {c : Claims} {d : TokenDetails}

theorem dot_not_mem_tag (k : SignedCodec) (message : List Char) : '.' ∉ k.tag message :=
  Base64Url.dot_not_mem_encode _

theorem parts?_eq_some {value : String} {header payload tag : List Char}
    (h : value.toList = (header ++ '.' :: payload) ++ '.' :: tag) (hpayload : '.' ∉ payload)
    (htag : '.' ∉ tag) :
    parts? value = some (header ++ '.' :: payload, (header, payload), tag) := by
  rw [parts?, h, Text.cutLast?_append htag]
  simp [Text.cutLast?_append hpayload]

theorem parts?_encode (k : SignedCodec) (c : Claims) (d : TokenDetails) :
    parts? (k.encode c d) =
      some (k.message c d, (segment (header k.algorithm), segment (k.payload c d)),
        k.tag (k.message c d)) :=
  parts?_eq_some (String.toList_ofList ..) (Base64Url.dot_not_mem_encode _) (dot_not_mem_tag k _)

/-- A value is its parts with the dots between them. -/
theorem toList_of_parts? {value : String} {message header payload tag : List Char}
    (h : parts? value = some (message, (header, payload), tag)) :
    message = header ++ '.' :: payload ∧ value.toList = message ++ '.' :: tag ∧ '.' ∉ tag := by
  simp only [parts?, Option.bind_eq_bind] at h
  obtain ⟨⟨message', tag'⟩, hvalue, h⟩ := Option.bind_eq_some_iff.1 h
  obtain ⟨⟨header', payload'⟩, hmessage, h⟩ := Option.bind_eq_some_iff.1 h
  cases h
  obtain ⟨hvalue, htag⟩ := Text.eq_of_cutLast? hvalue
  exact ⟨(Text.eq_of_cutLast? hmessage).1, hvalue, htag⟩

theorem readSegment?_segment (shape : Json.Shape) (j : Json) :
    readSegment? shape (segment j) = Json.read? shape Json.maxDepth (Json.chars j) := by
  simp [readSegment?, segment, Base64Url.decode?_encode, Json.text]

theorem readHeader?_segment (a : SigningAlgorithm) :
    readHeader? (segment (header a)) = some a.name := by
  rw [readHeader?, readSegment?_segment]
  cases a <;> decide +kernel

/-- The checks that a value has passed when it decodes. -/
theorem decode_ok {value : String} {v : Verified} (h : k.decode value = .ok v) :
    ∃ message headerPart payloadPart p,
      parts? value = some (message, (headerPart, payloadPart), k.tag message) ∧
      readHeader? headerPart = some k.algorithm.name ∧ readPayload? payloadPart = some p ∧
      0 ≤ p.expiresAt ∧ p.issuer = k.issuer ∧ p.audience = k.audience ∧ verified? p = some v := by
  unfold decode at h
  split at h
  · next message headerPart payloadPart tag hparts =>
    split at h
    · next algorithm hheader =>
      simp only [bind, Except.bind, pure, Except.pure, throw, throwThe, MonadExceptOf.throw] at h
      split at h
      · cases h
      next halgorithm =>
        split at h
        · cases h
        next htag =>
          split at h
          · next p hpayload =>
            split at h
            · cases h
            next hexpiry =>
              split at h
              · cases h
              next hissuer =>
                split at h
                · cases h
                next haudience =>
                  split at h
                  · next v' hverified =>
                    cases h
                    simp only [ne_eq, Decidable.not_not] at halgorithm htag hissuer haudience
                    subst halgorithm htag
                    exact ⟨message, headerPart, payloadPart, p, hparts, hheader, hpayload,
                      Int.not_lt.1 hexpiry, hissuer, haudience, hverified⟩
                  · cases h
          · cases h
    · cases h
  · cases h

/-- The fields that stand in front of the claims. -/
def ownFields (k : SignedCodec) (d : TokenDetails) : List (String × Json) :=
  [("jti", .str d.id.text), ("iat", .int d.issuedAt.seconds), ("exp", .int d.expiresAt.seconds),
    ("iss", .str k.issuer), ("aud", .str k.audience), ("token_kind", d.kind.toJson)]

theorem payload_eq (k : SignedCodec) (c : Claims) (d : TokenDetails) :
    k.payload c d = .obj (k.ownFields d ++ c.entries.toList) := rfl

theorem echoes_ownFields (k : SignedCodec) (d : TokenDetails) :
    ∀ f ∈ k.ownFields d, Json.Echoes f.2 := by
  simp only [ownFields, List.forall_mem_cons, TokenKind.toJson]
  exact ⟨Json.echoes_str _, Json.echoes_int _, Json.echoes_int _, Json.echoes_str _,
    Json.echoes_str _, Json.echoes_str _, by simp⟩

/-! ### What a payload says -/

/-- The payload `p` is what the fields of an object say, each of the format's own fields once. -/
structure Payload.Of (p : Payload) (fields : List (String × Json)) : Prop where
  own : Json.Once Claims.reserved fields
  registered : Json.Once ["sub", "nbf"] fields
  subject : ((Json.obj fields).field? "sub").all subjectFits
  notBefore : ((Json.obj fields).field? "nbf").all notBeforeFits
  id : (Json.obj fields).field? "jti" = some (.str p.id)
  issuedAt : ((Json.obj fields).field? "iat").bind TokenSettings.seconds? = some p.issuedAt
  expiresAt : ((Json.obj fields).field? "exp").bind TokenSettings.seconds? = some p.expiresAt
  issuer : (Json.obj fields).field? "iss" = some (.str p.issuer)
  audience : (Json.obj fields).field? "aud" = some (.str p.audience)
  kind : ((Json.obj fields).field? "token_kind").bind TokenKind.ofJson? = some p.kind
  claims : p.claims = ⟨.ofList ((fields.filter fun f => !Claims.reserved.contains f.1).map
    fun f => (f.1, f.2.canonical))⟩

theorem bind_text?_eq_some {j : Option Json} {s : String} :
    j.bind Json.text? = some s ↔ j = some (.str s) := by
  constructor
  · intro h
    obtain ⟨j, rfl, hj⟩ := Option.bind_eq_some_iff.1 h
    cases j with
    | str t => exact congrArg (fun t => some (Json.str t)) (Option.some.inj hj)
    | _ => cases hj
  · rintro rfl
    rfl

theorem payload?_eq_some_iff {fields : List (String × Json)} {p : Payload} :
    payload? (.obj fields) = some p ↔ p.Of fields := by
  simp only [payload?, Option.bind_eq_bind]
  constructor
  · intro h
    obtain ⟨r, hr, h⟩ := Option.bind_eq_some_iff.1 h
    obtain ⟨registered, hreg, h⟩ := Option.bind_eq_some_iff.1 h
    split at h
    · exact absurd h (by simp)
    · next hfits =>
      rw [Json.get?_record? hreg (by decide), Json.get?_record? hreg (by decide), Bool.not_eq_false,
        Bool.and_eq_true] at hfits
      obtain ⟨id, hid, h⟩ := Option.bind_eq_some_iff.1 h
      obtain ⟨issuedAt, hissued, h⟩ := Option.bind_eq_some_iff.1 h
      obtain ⟨expiresAt, hexpires, h⟩ := Option.bind_eq_some_iff.1 h
      obtain ⟨issuer, hissuer, h⟩ := Option.bind_eq_some_iff.1 h
      obtain ⟨audience, haudience, h⟩ := Option.bind_eq_some_iff.1 h
      obtain ⟨kind, hkind, h⟩ := Option.bind_eq_some_iff.1 h
      obtain rfl := Option.some.inj h
      rw [Json.required_record? hr (by decide)] at hid hissued hexpires hissuer haudience hkind
      exact ⟨Json.record?_isSome_iff.1 (by simp [hr]), Json.record?_isSome_iff.1 (by simp [hreg]),
        hfits.1, hfits.2, bind_text?_eq_some.1 hid, hissued, hexpires, bind_text?_eq_some.1 hissuer,
        bind_text?_eq_some.1 haudience, hkind, rfl⟩
  · intro h
    obtain ⟨r, hr⟩ := Option.isSome_iff_exists.1 (Json.record?_isSome_iff.2 h.own)
    obtain ⟨registered, hreg⟩ := Option.isSome_iff_exists.1 (Json.record?_isSome_iff.2 h.registered)
    have hget : ∀ {α : Type} (read : Json → Option α), ∀ name ∈ Claims.reserved,
        r.required read name = ((Json.obj fields).field? name).bind read :=
      fun read _ hn => Json.required_record? hr hn read
    have hfits : ((registered.get? "sub").all subjectFits &&
        (registered.get? "nbf").all notBeforeFits) = true := by
      rw [Json.get?_record? hreg (by decide), Json.get?_record? hreg (by decide), h.subject,
        h.notBefore]
      rfl
    rw [hr, hreg, Option.bind_some, Option.bind_some, if_neg (by simp [hfits])]
    simp only [hget _ "jti" (by decide), hget _ "iat" (by decide), hget _ "exp" (by decide),
      hget _ "iss" (by decide), hget _ "aud" (by decide), hget _ "token_kind" (by decide),
      bind_text?_eq_some.2 h.id, bind_text?_eq_some.2 h.issuer, bind_text?_eq_some.2 h.audience,
      h.issuedAt, h.expiresAt, h.kind, Option.bind_some, ← h.claims]
    rfl

/-- The own fields of a payload are found in front of all others. -/
theorem payload?_front {id issuer audience issuedAt expiresAt kind : Json}
    {others : List (String × Json)} {p : Payload}
    (h : payload? (.obj ([("jti", id), ("iat", issuedAt), ("exp", expiresAt), ("iss", issuer),
      ("aud", audience), ("token_kind", kind)] ++ others)) = some p) :
    id = .str p.id ∧ TokenSettings.seconds? expiresAt = some p.expiresAt ∧ issuer = .str p.issuer ∧
      audience = .str p.audience ∧ TokenKind.ofJson? kind = some p.kind := by
  have hof := payload?_eq_some_iff.1 h
  exact ⟨by simpa [Json.field?] using hof.id, by simpa [Json.field?] using hof.expiresAt,
    by simpa [Json.field?] using hof.issuer, by simpa [Json.field?] using hof.audience,
    by simpa [Json.field?] using hof.kind⟩

theorem ofJson?_toJson (kind : TokenKind) : TokenKind.ofJson? kind.toJson = some kind := by
  cases kind <;> rfl

/-- Whatever the claims are, the written fields of the format are what is read. -/
theorem readPayload?_segment {p : Payload}
    (h : readPayload? (segment (k.payload c d)) = some p) :
    p.id = d.id.text ∧ p.issuer = k.issuer ∧ p.audience = k.audience ∧ p.kind = d.kind ∧
      (Json.echo? (.int d.expiresAt.seconds)).bind TokenSettings.seconds? = some p.expiresAt := by
  obtain ⟨j, hread, hj⟩ := Option.bind_eq_some_iff.1 h
  rw [readSegment?_segment, payload_eq] at hread
  obtain ⟨read, others, hecho, rfl⟩ :=
    Json.read?_obj_front (k.echoes_ownFields d) (by simp [ownFields]) hread
  obtain ⟨issuedAt, expiresAt, hexpires, rfl⟩ : ∃ issuedAt expiresAt,
      Json.echo? (.int d.expiresAt.seconds) = some expiresAt ∧
      read = [("jti", .str d.id.text), ("iat", issuedAt), ("exp", expiresAt),
        ("iss", .str k.issuer), ("aud", .str k.audience), ("token_kind", d.kind.toJson)] := by
    cases hiat : (Json.numeral d.issuedAt.seconds).number? with
    | none => simp [Json.echoFields?, ownFields, Json.echo?, hiat] at hecho
    | some issuedAt =>
      cases hexp : (Json.numeral d.expiresAt.seconds).number? with
      | none => simp [Json.echoFields?, ownFields, Json.echo?, hiat, hexp] at hecho
      | some expiresAt =>
        refine ⟨issuedAt, expiresAt, by rw [Json.echo?, hexp], ?_⟩
        simpa [Json.echoFields?, ownFields, Json.echo?, hiat, hexp, TokenKind.toJson, eq_comm]
          using hecho
  obtain ⟨hid, hseconds, hissuer, haudience, hkind⟩ := payload?_front hj
  have hk : d.kind = p.kind := Option.some.inj ((ofJson?_toJson d.kind).symm.trans hkind)
  exact ⟨(Json.str.inj hid).symm, (Json.str.inj hissuer).symm, (Json.str.inj haudience).symm,
    hk.symm, by rw [hexpires, Option.bind_some, hseconds]⟩

theorem verified?_eq_some_iff {p : Payload} {v : Verified} :
    verified? p = some v ↔
      Instant.ofSeconds? p.issuedAt = some v.details.issuedAt ∧
      Instant.ofSeconds? p.expiresAt = some v.details.expiresAt ∧ Text.isBlank p.id = false ∧
      v.details.id = ⟨p.id⟩ ∧ v.details.kind = p.kind ∧ v.claims = p.claims := by
  simp only [verified?, Option.bind_eq_bind]
  constructor
  · intro h
    obtain ⟨issuedAt, hissued, h⟩ := Option.bind_eq_some_iff.1 h
    obtain ⟨expiresAt, hexpires, h⟩ := Option.bind_eq_some_iff.1 h
    split at h
    · cases h
    next hblank =>
      cases h
      exact ⟨hissued, hexpires, Bool.eq_false_iff.2 hblank, rfl, rfl, rfl⟩
  · rintro ⟨hissued, hexpires, hblank, hid, hkind, hclaims⟩
    obtain ⟨claims, id, kind, issuedAt, expiresAt⟩ := v
    simp only at hissued hexpires hid hkind hclaims
    rw [hissued, hexpires, hid, hkind, hclaims]
    simp [hblank]

/-- A written value decodes only with the tag that it was written with, and to what its own segments
say. -/
theorem decode_encode_ok {k' : SignedCodec} {v : Verified} (h : k.decode (k'.encode c d) = .ok v) :
    k'.tag (k'.message c d) = k.tag (k'.message c d) ∧
      readHeader? (segment (header k'.algorithm)) = some k.algorithm.name ∧
      ∃ p, readPayload? (segment (k'.payload c d)) = some p ∧ p.issuer = k.issuer ∧
        p.audience = k.audience ∧ verified? p = some v := by
  obtain ⟨message, header, payload, p, hparts, hheader, hpayload, -, hissuer, haudience, hverified⟩ :=
    decode_ok h
  rw [parts?_encode] at hparts
  simp only [Option.some.injEq, Prod.mk.injEq] at hparts
  obtain ⟨rfl, ⟨rfl, rfl⟩, htag⟩ := hparts
  exact ⟨htag, hheader, p, hpayload, hissuer, haudience, hverified⟩

theorem id_of_decode_encode {v : Verified} (h : k.decode (k.encode c d) = .ok v) :
    v.details.id = d.id := by
  obtain ⟨-, -, p, hpayload, -, -, hverified⟩ := decode_encode_ok h
  obtain ⟨hid, -⟩ := readPayload?_segment hpayload
  obtain ⟨-, -, -, hid', -⟩ := verified?_eq_some_iff.1 hverified
  exact hid'.trans (congrArg Id.mk hid)

/-- What was written for some details decodes to nothing else. -/
theorem details_of_decode_encode {v : Verified} (hnanos : d.expiresAt.nanos = 0)
    (hexact : Json.Numeral.Exact d.expiresAt.seconds)
    (h : k.decode (k.encode c d) = .ok v) :
    v.details.id = d.id ∧ v.details.kind = d.kind ∧ v.details.expiresAt = d.expiresAt := by
  obtain ⟨-, -, p, hpayload, -, -, hverified⟩ := decode_encode_ok h
  obtain ⟨-, -, -, hkind, hexpires⟩ := readPayload?_segment hpayload
  have hseconds : p.expiresAt = d.expiresAt.seconds := by
    rw [Json.echo?, Json.Numeral.number?_numeral hexact, Option.bind_some, TokenSettings.seconds?,
      Json.intIn?] at hexpires
    split at hexpires
    · exact (Option.some.inj hexpires).symm
    · cases hexpires
  obtain ⟨-, hexpiry, -, -, hkind', -⟩ := verified?_eq_some_iff.1 hverified
  refine ⟨id_of_decode_encode h, hkind'.trans hkind, ?_⟩
  rw [hseconds, Instant.ofSeconds?] at hexpiry
  split at hexpiry
  · rw [← Option.some.inj hexpiry, ← hnanos]
  · cases hexpiry

end SignedCodec

end AccessControl
