import AccessControl.Proofs.Token.Issued
import AccessControl.Proofs.Token.SignedRoundTrip

/-!
# What an issued token verifies as

`m.Bears b t c` ties a token to the claims that it was issued for, in either format and whatever
happens to the backend (`Bears.changes`): a signed value was written for the claims, and the record
of an opaque one never comes to hold other claims. The verdict on such a token is then a matter of
four questions to the backend and the claims (`Bears.verdict`).
-/

namespace AccessControl

/-- The first `n` values and identifiers of a supply can be told apart, and no identifier is blank. -/
structure Supply.Distinct (s : Supply) (p : Primitives) (n : Nat) : Prop extends s.Fresh p n where
  named : ∀ i < n, Text.isBlank (s.id i).text = false
  apart : ∀ i < n, ∀ j < n, s.id i = s.id j → i = j

theorem Supply.Distinct.mono {s : Supply} {p : Primitives} {n n' : Nat} (h : s.Distinct p n')
    (hle : n ≤ n') : s.Distinct p n :=
  ⟨h.toFresh.mono hle, fun i hi => h.named i (by omega),
    fun i hi j hj => h.apart i (by omega) j (by omega)⟩

namespace TokenManager

open Backend

variable {m : TokenManager} {b b' : Backend} {t : Token} {c : Claims}

/-- The identifier of the token for which the `n`-th identifier or value is drawn. -/
def idAt (m : TokenManager) (s : Supply) (n : Nat) : TokenId :=
  match m.backing with
  | .signed _ => s.id n
  | .stored => OpaqueValue.id m.primitives (s.value n)

theorem idAt_inj {s : Supply} {n i j : Nat} (h : s.Distinct m.primitives n) (hi : i < n) (hj : j < n)
    (he : m.idAt s i = m.idAt s j) : i = j := by
  unfold idAt at he
  split at he
  · exact h.apart i hi j hj he
  · exact h.distinct i hi j hj he

/-- The claims that verification can read in this format. -/
def legible (m : TokenManager) (c : Claims) : Bool :=
  match m.backing with
  | .signed _ => c.registeredFit
  | .stored => true

/-- The details that verification shows; a signed value holds the time of issue in whole seconds. -/
def shown (m : TokenManager) (d : TokenDetails) : TokenDetails :=
  match m.backing with
  | .signed _ => d.inSeconds
  | .stored => d

@[simp] theorem shown_id (m : TokenManager) (d : TokenDetails) : (m.shown d).id = d.id := by
  unfold shown; split <;> rfl

@[simp] theorem shown_kind (m : TokenManager) (d : TokenDetails) : (m.shown d).kind = d.kind := by
  unfold shown; split <;> rfl

@[simp] theorem shown_expiresAt (m : TokenManager) (d : TokenDetails) :
    (m.shown d).expiresAt = d.expiresAt := by
  unfold shown; split <;> rfl

theorem shown_of_whole (m : TokenManager) {d : TokenDetails} (h : d.issuedAt.nanos = 0) :
    m.shown d = d := by
  unfold shown
  split
  · rw [TokenDetails.inSeconds, ← h]
  · rfl

/-- What verification needs of a token besides its value is there. -/
def holds (m : TokenManager) (b : Backend) (id : TokenId) : Bool :=
  match m.backing with
  | .signed _ => true
  | .stored => (b.store.find? id).isSome

theorem holds_of_signed (h : m.hasStore = false) (b : Backend) (id : TokenId) :
    m.holds b id = true := by
  cases hbacking : m.backing with
  | signed k => rw [holds, hbacking]
  | stored =>
    rw [hasStore, hbacking] at h
    cases h

theorem Issued.holds (h : m.Issued b t) (hlive : b.clock < t.expiresAt) :
    m.holds b t.id = true := by
  unfold TokenManager.holds
  split
  · rfl
  next hs =>
    obtain ⟨r, hr⟩ := h.kept hs hlive
    rw [hr]
    rfl

/-- A token is revoked, in its record or on the list. -/
def revoked (m : TokenManager) (b : Backend) (id : TokenId) : Bool :=
  (m.hasStore && b.store.isRevoked id) || b.revocations.contains id

/-- The token was issued for these claims before `b`. -/
structure Bears (m : TokenManager) (b : Backend) (t : Token) (c : Claims) : Prop where
  tenant : c.tenant? = some t.tenant
  subject : ∃ s, c.subject? = some s ∧ t.metadata.get? "subject_id" = some s.text
  drawn : ∃ n < b.drawn, t.id = m.idAt b.supply n ∧
    (m.backing = .stored → t.value = b.supply.value n)
  signed : ∀ k, m.backing = .signed k → t.value = k.encode c t.details ∧ t.details.Writable
  record : m.backing = .stored → ∀ r, b.store.find? t.id = some r →
    ∃ mark, r = { t.record c with revokedAt := mark }

/-- The identifier was drawn before `b`. -/
def Drew (m : TokenManager) (b : Backend) (id : TokenId) : Prop :=
  ∃ n < b.drawn, id = m.idAt b.supply n

/-- It is not drawn again. -/
theorem Drew.ne_idAt {id : TokenId} (h : m.Drew b id) {i n : Nat} (hi : b.drawn ≤ i) (hn : i < n)
    (hdistinct : b.supply.Distinct m.primitives n) : id ≠ m.idAt b.supply i := by
  rintro rfl
  obtain ⟨j, hj, he⟩ := h
  have hij := idAt_inj hdistinct hn (by omega) he
  omega

theorem Drew.changes {id : TokenId} (h : m.Drew b id) (hchanges : m.Changes b b') :
    m.Drew b' id := by
  obtain ⟨n, hn, hid⟩ := h
  refine ⟨n, Nat.lt_of_lt_of_le hn (Changes.drawn_le hchanges), ?_⟩
  rw [hid, Changes.supply_eq hchanges]

theorem Bears.drew (h : m.Bears b t c) : m.Drew b t.id :=
  let ⟨n, hn, hid, _⟩ := h.drawn
  ⟨n, hn, hid⟩

/-! ### Issuing -/

/-- An expiry within the representable years is one. -/
theorem expires_of_fit {kind : TokenKind} (hlife : ∀ kind, 0 < m.settings.lifetime kind)
    (hread : b.clock.IsReading)
    (hmin : Instant.minSeconds ≤ b.clock.seconds + m.settings.lifetime kind)
    (hmax : b.clock.seconds + m.settings.lifetime kind ≤ Instant.maxSeconds) :
    b.clock.wholeSecond.addSeconds? (m.settings.lifetime kind) ≠ none := by
  rw [Instant.addSeconds?_wholeSecond hread (hlife kind), Instant.ofSeconds?, if_pos ⟨hmin, hmax⟩]
  exact Option.some_ne_none _

/-- Checked claims are complete, so only an expiry that is not representable stops a token. -/
theorem exec_issue_of_check (hc : c.check = .ok ()) (kind : TokenKind) (b : Backend) :
    (∃ t b', b.exec (m.issue c kind) = (.done (.ok t), b') ∧ m.Issues c kind b t b') ∨
    (b.exec (m.issue c kind) = (.aborted, b) ∧
      b.clock.wholeSecond.addSeconds? (m.settings.lifetime kind) = none) := by
  rcases exec_issue m c kind b with h | h | ⟨-, h⟩
  · exact .inl h
  · exact .inr h
  · exact absurd h (Claims.complete_of_check hc)

section

variable {kind : TokenKind}

theorem Issues.clock_eq (h : m.Issues c kind b t b') : b'.clock = b.clock := by
  rw [h.after, keep_clock]

theorem Issues.drawn_eq (h : m.Issues c kind b t b') : b'.drawn = b.drawn + 1 := by
  rw [h.after, keep_drawn]

theorem Issues.supply_eq (h : m.Issues c kind b t b') : b'.supply = b.supply :=
  Changes.supply_eq h.changes

/-- The expiry of an issued token, and that it is representable. -/
theorem Issues.expiry (h : m.Issues c kind b t b')
    (hlife : ∀ kind, 0 < m.settings.lifetime kind) (hread : b.clock.IsReading) :
    t.expiresAt = ⟨b.clock.seconds + m.settings.lifetime kind, 0⟩ ∧
      b.clock.seconds + m.settings.lifetime kind ≤ Instant.maxSeconds := by
  have hexpires := h.expiresAt
  rw [h.issuedAt, Instant.addSeconds?_wholeSecond hread (hlife kind),
    Instant.ofSeconds?_eq_some] at hexpires
  exact ⟨hexpires.2, hexpires.1.2⟩

theorem Issues.live (h : m.Issues c kind b t b')
    (hlife : ∀ kind, 0 < m.settings.lifetime kind) (hread : b.clock.IsReading) :
    b.clock < t.expiresAt := by
  have hkind := hlife kind
  rw [(h.expiry hlife hread).1]
  exact .inl (by show b.clock.seconds < _ + _; omega)

theorem Issues.id_eq (h : m.Issues c kind b t b') :
    t.id = m.idAt b.supply b.drawn := by
  unfold idAt
  split
  next k hk => exact (h.signed k hk).1
  next hs => rw [(h.stored hs).2, (h.stored hs).1]

theorem Issues.writable (h : m.Issues c kind b t b')
    (hlife : ∀ kind, 0 < m.settings.lifetime kind) (hread : b.clock.IsReading)
    (hmin : Instant.minSeconds ≤ b.clock.seconds)
    (hepoch : 0 ≤ b.clock.seconds + m.settings.lifetime kind)
    (hnamed : Text.isBlank (b.supply.id b.drawn).text = false) {k : SignedCodec}
    (hk : m.backing = .signed k) : t.details.Writable := by
  obtain ⟨hexpires, hmax⟩ := h.expiry hlife hread
  have hlife := hlife kind
  have hissued : t.issuedAt.seconds = b.clock.seconds := by rw [h.issuedAt]; rfl
  refine ⟨?_, ?_, ?_, by rw [Token.details, hexpires]⟩
  · show Text.isBlank t.id.text = false
    rw [(h.signed k hk).1]
    exact hnamed
  · exact ⟨hissued ▸ hmin, by show t.issuedAt.seconds ≤ _; omega⟩
  · rw [Token.details, hexpires]
    exact ⟨hepoch, hmax⟩

theorem Issues.bears_of_writable (h : m.Issues c kind b t b')
    (hwritable : ∀ k, m.backing = .signed k → t.details.Writable) : m.Bears b' t c := by
  obtain ⟨s, hs, hmeta⟩ := h.subject
  refine ⟨h.tenant, ⟨s, hs, hmeta⟩, ⟨b.drawn, ?_, ?_, ?_⟩,
    fun k hk => ⟨(h.signed k hk).2, hwritable k hk⟩, fun hstored r hr => ⟨none, ?_⟩⟩
  · rw [h.drawn_eq]
    exact Nat.lt_succ_self _
  · rw [h.supply_eq]
    exact h.id_eq
  · rw [h.supply_eq]
    exact fun hstored => (h.stored hstored).1
  · rw [h.after, keep, hstored] at hr
    simp only [TokenStore.find?_insert, Token.record, if_true, Option.some.injEq] at hr
    exact hr.symm

theorem Issues.bears (h : m.Issues c kind b t b')
    (hlife : ∀ kind, 0 < m.settings.lifetime kind) (hread : b.clock.IsReading)
    (hmin : Instant.minSeconds ≤ b.clock.seconds)
    (hepoch : 0 ≤ b.clock.seconds + m.settings.lifetime kind)
    (hnamed : Text.isBlank (b.supply.id b.drawn).text = false) : m.Bears b' t c :=
  h.bears_of_writable fun _ hk => h.writable hlife hread hmin hepoch hnamed hk

theorem Issues.holds (h : m.Issues c kind b t b') : m.holds b' t.id = true := by
  rw [h.after, TokenManager.holds, keep]
  cases m.backing with
  | signed k => rfl
  | stored => simp [Token.record]

/-- A token that was just issued is revoked only if its identifier was before. -/
theorem Issues.revoked (h : m.Issues c kind b t b') :
    m.revoked b' t.id = b.revocations.contains t.id := by
  rw [h.after, TokenManager.revoked, hasStore, keep_revocations, keep]
  cases m.backing with
  | signed k => rfl
  | stored => simp [TokenStore.isRevoked, Token.record, TokenRecord.isRevoked]

end

/-! ### What changes leave -/

theorem Bears.change (h : m.Bears b t c) (hchange : m.Change b b')
    (hdistinct : b.supply.Distinct m.primitives b'.drawn) : m.Bears b' t c := by
  have hmore : ∃ n < b.drawn + 1, t.id = m.idAt b.supply n ∧
      (m.backing = .stored → t.value = b.supply.value n) := by
    obtain ⟨n, hn, hdrawn⟩ := h.drawn
    exact ⟨n, Nat.lt_succ_of_lt hn, hdrawn⟩
  cases hchange with
  | draw => exact { h with drawn := hmore }
  | @record r hstored hid =>
    have hne := h.drew.ne_idAt (Nat.le_refl _) (Nat.lt_succ_self _) hdistinct
    refine { h with drawn := hmore, record := fun hs r' hr' => ?_ }
    have hid' : r.id = m.idAt b.supply b.drawn := by rw [hid, idAt, hstored]
    rw [TokenStore.find?_insert, hid', if_neg hne] at hr'
    exact h.record hs r' hr'
  | mark s id time =>
    refine { h with record := fun hs r hr => ?_ }
    rw [TokenStore.find?_revoke] at hr
    obtain ⟨r', hr', rfl⟩ := Option.map_eq_some_iff.1 hr
    obtain ⟨mark, rfl⟩ := h.record hs r' hr'
    split
    · obtain ⟨time', he⟩ := TokenRecord.mark_eq _ time
      exact ⟨some time', he⟩
    · exact ⟨mark, rfl⟩
  | sweepRecords =>
    refine { h with record := fun hs r hr => ?_ }
    rw [TokenStore.find?_cleanup] at hr
    exact h.record hs r (Option.filter_eq_some_iff.1 hr).1
  | _ => exact { h with }

theorem Bears.changes (h : m.Bears b t c) (hchanges : m.Changes b b')
    (hdistinct : b.supply.Distinct m.primitives b'.drawn) : m.Bears b' t c := by
  induction hchanges with
  | refl => exact h
  | tail hs hchange ih =>
    refine (ih (hdistinct.mono hchange.drawn_le)).change hchange ?_
    rw [Changes.supply_eq hs]
    exact hdistinct

/-! ### What verification reads -/

theorem Bears.named (h : m.Bears b t c) (hstored : m.backing = .stored) :
    OpaqueValue.id m.primitives t.value = t.id := by
  obtain ⟨n, -, hid, hvalue⟩ := h.drawn
  rw [hid, idAt, hstored, hvalue hstored]

theorem Bears.kind_of_found (h : m.Bears b t c) {v : Verified} {marked : Bool}
    (hfound : m.found b t.value = .ok (v, marked)) : v.details.kind = t.kind := by
  unfold TokenManager.found at hfound
  cases hbacking : m.backing with
  | signed k =>
    obtain ⟨hvalue, hw⟩ := h.signed k hbacking
    rw [hbacking] at hfound
    obtain ⟨v', hv', he⟩ := Except.map_eq_ok.1 hfound
    obtain ⟨rfl, -⟩ := Prod.mk.inj he
    rw [hvalue] at hv'
    have hexact := Json.Numeral.exact_of_seconds (Int.le_trans (by decide) hw.expiresAt.1)
      hw.expiresAt.2
    exact (SignedCodec.details_of_decode_encode hw.whole hexact hv').2.1
  | stored =>
    simp only [hbacking, h.named hbacking] at hfound
    split at hfound
    · split at hfound
      · cases hfound
      next r hr =>
        obtain ⟨rfl, -⟩ := Prod.mk.inj (Except.ok.inj hfound)
        obtain ⟨mark, rfl⟩ := h.record hbacking r hr
        rfl
    · cases hfound

theorem Bears.found (h : m.Bears b t c) (hp : c.Plain)
    (hdistinct : b.supply.Distinct m.primitives b.drawn) :
    m.found b t.value =
      if m.legible c = false then .error .malformed
      else if m.holds b t.id = false then .error .notFound
      else .ok (⟨c, m.shown t.details⟩, m.hasStore && b.store.isRevoked t.id) := by
  unfold TokenManager.found legible holds shown hasStore
  cases hbacking : m.backing with
  | signed k =>
    obtain ⟨hvalue, hwritable⟩ := h.signed k hbacking
    simp only [hvalue, SignedCodec.decode_encode hp hwritable]
    cases c.registeredFit <;> rfl
  | stored =>
    obtain ⟨n, hn, -, hvalue⟩ := h.drawn
    have hform : OpaqueValue.isWellFormed t.value = true :=
      hvalue hbacking ▸ hdistinct.wellFormed n hn
    simp only [hform, if_true, h.named hbacking, TokenStore.isRevoked]
    cases hr : b.store.find? t.id with
    | none => rfl
    | some r =>
      obtain ⟨mark, rfl⟩ := h.record hbacking r hr
      rfl

/-- The verdict on an issued token, whatever happened to the backend since. -/
theorem Bears.verdict (h : m.Bears b t c) (hp : c.Plain) (hscope : c.hasScope)
    (hdistinct : b.supply.Distinct m.primitives b.drawn) :
    m.verdict b t.value =
      if m.legible c = false then .error .malformed
      else if m.holds b t.id = false then .error .notFound
      else if t.expiresAt ≤ b.clock then .error .expired
      else if m.revoked b t.id then .error .revoked
      else .ok ⟨c, m.shown t.details⟩ := by
  unfold TokenManager.verdict revoked
  rw [h.found hp hdistinct]
  cases m.legible c with
  | false => rfl
  | true => cases m.holds b t.id <;> simp [Token.details, hscope]

theorem Bears.claims_of_found (h : m.Bears b t c) (hp : c.Plain)
    (hdistinct : b.supply.Distinct m.primitives b.drawn) {v : Verified} {marked : Bool}
    (hfound : m.found b t.value = .ok (v, marked)) :
    v = ⟨c, m.shown t.details⟩ ∧ m.legible c = true := by
  rw [h.found hp hdistinct] at hfound
  split at hfound
  · cases hfound
  next hlegible =>
    split at hfound
    · cases hfound
    · obtain ⟨rfl, -⟩ := Prod.mk.inj (Except.ok.inj hfound)
      exact ⟨rfl, by simpa using hlegible⟩

/-- A token that is there, alive and not revoked verifies. -/
theorem Bears.valid (h : m.Bears b t c) (hp : c.Plain) (hscope : c.hasScope)
    (hdistinct : b.supply.Distinct m.primitives b.drawn) (hlegible : m.legible c = true)
    (hholds : m.holds b t.id = true) (hlive : b.clock < t.expiresAt)
    (hunrevoked : m.revoked b t.id = false) :
    m.verdict b t.value = .ok ⟨c, m.shown t.details⟩ := by
  rw [h.verdict hp hscope hdistinct, hlegible, hholds, hunrevoked, if_neg (by decide),
    if_neg (by decide), if_neg (Instant.not_le.2 hlive), if_neg (by decide)]

end TokenManager

theorem Sample.distinct_four : Supply.counting.Distinct .standard 4 := by
  refine ⟨fresh_four, ?_, ?_⟩ <;> decide +kernel

end AccessControl
