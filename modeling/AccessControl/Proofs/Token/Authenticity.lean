import AccessControl.Proofs.Token.SignedForm

/-!
# Only genuine values decode

`Genuine` says in full what a signed value has to be; a value decodes exactly if it is that, and what
it decodes to can be read off its payload (`decode_eq_ok_iff`). Every other value is refused as
malformed or for its signature, also one that was written by another codec, or changed and not
tagged anew (`genuine_or_refused`). Nothing is assumed of the keyed hash.
-/

namespace AccessControl

namespace Base64Url

theorem value?_dot : value? '.' = none := by decide

theorem dot_not_mem_of_decode? {cs : List Char} {bs : List UInt8} (h : decode? cs = some bs) :
    '.' ∉ cs := by
  have hne : ∀ {c : Char} {n : Nat}, value? c = some n → '.' ≠ c := by
    rintro c n hc rfl
    rw [value?_dot] at hc
    cases hc
  fun_induction decode? cs generalizing bs with
  | case1 a b c d cs ih =>
    simp only [Option.bind_eq_bind] at h
    obtain ⟨_, ha, h⟩ := Option.bind_eq_some_iff.1 h
    obtain ⟨_, hb, h⟩ := Option.bind_eq_some_iff.1 h
    obtain ⟨_, hc, h⟩ := Option.bind_eq_some_iff.1 h
    obtain ⟨_, hd, h⟩ := Option.bind_eq_some_iff.1 h
    obtain ⟨_, hcs, -⟩ := Option.bind_eq_some_iff.1 h
    simp [hne ha, hne hb, hne hc, hne hd, ih hcs]
  | case2 a b c =>
    simp only [Option.bind_eq_bind] at h
    obtain ⟨_, ha, h⟩ := Option.bind_eq_some_iff.1 h
    obtain ⟨_, hb, h⟩ := Option.bind_eq_some_iff.1 h
    obtain ⟨_, hc, -⟩ := Option.bind_eq_some_iff.1 h
    simp [hne ha, hne hb, hne hc]
  | case3 a b =>
    simp only [Option.bind_eq_bind] at h
    obtain ⟨_, ha, h⟩ := Option.bind_eq_some_iff.1 h
    obtain ⟨_, hb, -⟩ := Option.bind_eq_some_iff.1 h
    simp [hne ha, hne hb]
  | case4 => cases h
  | case5 => simp

end Base64Url

namespace SignedCodec

variable {k : SignedCodec} {value : String} {v : Verified}

/-- What a value has to be to decode to `v`: a header and a payload in base64 with a dot between them,
and after another dot the tag of exactly this text. -/
structure Genuine (k : SignedCodec) (value : String) (v : Verified) (header payload : List Char)
    (fields : List (String × Json)) (p : Payload) : Prop where
  text : value.toList = (header ++ '.' :: payload) ++ '.' :: k.tag (header ++ '.' :: payload)
  algorithm : readHeader? header = some k.algorithm.name
  object : readSegment? .whole payload = some (.obj fields)
  reads : p.Of fields
  issuer : p.issuer = k.issuer
  audience : p.audience = k.audience
  named : Text.isBlank p.id = false
  epoch : 0 ≤ p.expiresAt
  id : v.details.id = ⟨p.id⟩
  kind : v.details.kind = p.kind
  issuedAt : Instant.ofSeconds? p.issuedAt = some v.details.issuedAt
  expiresAt : Instant.ofSeconds? p.expiresAt = some v.details.expiresAt
  claims : v.claims = p.claims

/-- A value is refused as one that was never signed. -/
def Refuses (k : SignedCodec) (value : String) : Prop :=
  k.decode value = .error .malformed ∨ k.decode value = .error .invalidSignature

/-! ### Decoding, check by check -/

theorem decode_of_genuine {header payload : List Char} {fields : List (String × Json)} {p : Payload}
    (h : k.Genuine value v header payload fields p) : k.decode value = .ok v := by
  have hpayload : '.' ∉ payload := by
    obtain ⟨bs, hbs, -⟩ := Option.bind_eq_some_iff.1 h.object
    exact Base64Url.dot_not_mem_of_decode? hbs
  have hparts := parts?_eq_some h.text hpayload (dot_not_mem_tag k _)
  have hread : readPayload? payload = some p := by
    rw [readPayload?, h.object]
    exact payload?_eq_some_iff.2 h.reads
  have hverified : verified? p = some v :=
    verified?_eq_some_iff.2 ⟨h.issuedAt, h.expiresAt, h.named, h.id, h.kind, h.claims⟩
  simp [decode, hparts, h.algorithm, hread, h.issuer, h.audience, hverified, Int.not_lt.2 h.epoch,
    pure, Except.pure]

theorem genuine_of_decode (h : k.decode value = .ok v) :
    ∃ header payload fields p, k.Genuine value v header payload fields p := by
  obtain ⟨message, header, payload, p, hparts, halgorithm, hread, hepoch, hissuer, haudience,
    hverified⟩ := decode_ok h
  obtain ⟨rfl, htext, -⟩ := toList_of_parts? hparts
  obtain ⟨j, hobject, hj⟩ := Option.bind_eq_some_iff.1 hread
  obtain ⟨fields, rfl⟩ : ∃ fields, j = .obj fields := by
    cases j with
    | obj fields => exact ⟨fields, rfl⟩
    | _ => cases hj
  obtain ⟨hissued, hexpires, hnamed, hid, hkind, hclaims⟩ := verified?_eq_some_iff.1 hverified
  exact ⟨header, payload, fields, p, htext, halgorithm, hobject, payload?_eq_some_iff.1 hj, hissuer,
    haudience, hnamed, hepoch, hid, hkind, hissued, hexpires, hclaims⟩

theorem decode_eq_ok_iff : k.decode value = .ok v ↔
    ∃ header payload fields p, k.Genuine value v header payload fields p :=
  ⟨genuine_of_decode, fun ⟨_, _, _, _, h⟩ => decode_of_genuine h⟩

theorem decoded_or_refused (k : SignedCodec) (value : String) :
    (∃ v, k.decode value = .ok v) ∨ k.Refuses value := by
  unfold Refuses decode
  simp only [bind, Except.bind, pure, Except.pure, throw, throwThe, MonadExceptOf.throw]
  repeat' split
  all_goals simp

/-! ### Values that were not written by the codec -/

theorem refuses_of_not_ok (h : ∀ v, k.decode value ≠ .ok v) : k.Refuses value :=
  (decoded_or_refused k value).resolve_left fun ⟨v, hv⟩ => h v hv

theorem refuses_untagged {message tag : List Char} (h : value.toList = message ++ '.' :: tag)
    (hdot : '.' ∉ tag) (htag : tag ≠ k.tag message) : k.Refuses value := by
  refine refuses_of_not_ok fun v hv => htag ?_
  obtain ⟨header, payload, fields, p, hgenuine⟩ := genuine_of_decode hv
  -- Both ways to cut the text cut it at its last dot.
  have hcut := Text.cutLast?_append (c := '.') (s := message) hdot
  rw [← h, hgenuine.text, Text.cutLast?_append (dot_not_mem_tag k _)] at hcut
  obtain ⟨rfl, rfl⟩ := Prod.mk.inj (Option.some.inj hcut)
  rfl

theorem name_injective {a b : SigningAlgorithm} (h : a.name = b.name) : a = b := by
  cases a <;> cases b <;> first | rfl | exact absurd h (by decide)

/-- A value is not accepted from a codec that differs in algorithm, issuer or audience, or tags
differently. -/
theorem refuses_foreign {k' : SignedCodec} {c : Claims} {d : TokenDetails}
    (h : k'.algorithm ≠ k.algorithm ∨ k'.issuer ≠ k.issuer ∨ k'.audience ≠ k.audience ∨
      k'.tag (k'.message c d) ≠ k.tag (k'.message c d)) : k.Refuses (k'.encode c d) := by
  refine refuses_of_not_ok fun v hv => ?_
  obtain ⟨htag, hheader, p, hpayload, hissuer, haudience, -⟩ := decode_encode_ok hv
  obtain ⟨-, hissuer', haudience', -⟩ := readPayload?_segment hpayload
  rw [readHeader?_segment] at hheader
  rcases h with halgorithm | hother | hother | hother
  · exact halgorithm (name_injective (Option.some.inj hheader))
  · exact hother (hissuer'.symm.trans hissuer)
  · exact hother (haudience'.symm.trans haudience)
  · exact hother htag

/-- A value decodes exactly if it is genuine, and is refused otherwise: so is every value whose tag is
not the tag of the text before it, and every value that was written by a codec with another
algorithm, issuer or audience, or with another secret under which its tag is another one. -/
theorem genuine_or_refused (k : SignedCodec) (value : String) :
    (∀ v, k.decode value = .ok v ↔
      ∃ header payload fields p, k.Genuine value v header payload fields p) ∧
    ((∃ v, k.decode value = .ok v) ∨ k.Refuses value) ∧
    (∀ message tag, value.toList = message ++ '.' :: tag → '.' ∉ tag → tag ≠ k.tag message →
      k.Refuses value) ∧
    (∀ (k' : SignedCodec) (c : Claims) (d : TokenDetails), value = k'.encode c d →
      (k'.algorithm ≠ k.algorithm ∨ k'.issuer ≠ k.issuer ∨ k'.audience ≠ k.audience ∨
        k'.tag (k'.message c d) ≠ k.tag (k'.message c d)) → k.Refuses value) := by
  refine ⟨fun v => decode_eq_ok_iff, decoded_or_refused k value,
    fun message tag h hdot htag => refuses_untagged h hdot htag, ?_⟩
  rintro k' c d rfl h
  exact refuses_foreign h

end SignedCodec

end AccessControl
