import AccessControl.Proofs.Token.Frame
import Mathlib.Data.List.Forall2

/-!
# A ledger of tokens

What a client can tell of a token manager without looking into values and identifiers fits into a
ledger: the clock, and of every token that was handed out its claims, kind and times and whether it
is revoked. `m.Keeps σ l` ties a manager's session to a ledger; every command keeps it and is answered
as the ledger answers it (`Keeps.obey`). The proof is one for both formats: what it needs to know of
the format is in `Bears.verdict`, `Issues` and `Strikes`.
-/

namespace AccessControl

/-- What a client does; a token is named by its place among those handed out. -/
inductive TokenCommand
  | clock (t : Instant)
  | generate (c : Claims) (kind : TokenKind)
  | verify (i : Nat)
  | refresh (i : Nat)
  | revoke (i : Nat)

/-! ### Sessions -/

/-- A backend, and the tokens that were handed out over it so far. -/
structure TokenSession where
  backend : Backend
  tokens : List Token

namespace TokenManager

/-- Serves a request and notes the tokens that it hands out. -/
def attend (m : TokenManager) (σ : TokenSession) (q : TokenRequest) :
    Outcome TokenReply × TokenSession :=
  let (o, b) := σ.backend.serve m q
  (o, ⟨b, σ.tokens ++ (TokenEvent.served q o).issued⟩)

/-- Presents the value of a token; if there is none at this place nothing happens. -/
def present (m : TokenManager) (σ : TokenSession) (i : Nat) (q : String → TokenRequest) :
    Option (Outcome TokenReply) × TokenSession :=
  match σ.tokens[i]? with
  | none => (none, σ)
  | some t => (m.attend σ (q t.value)).map some id

def obey (m : TokenManager) (σ : TokenSession) :
    TokenCommand → Option (Outcome TokenReply) × TokenSession
  | .clock t => (none, { σ with backend := { σ.backend with clock := t } })
  | .generate c kind => (m.attend σ (.generate c kind)).map some id
  | .verify i => m.present σ i .verify
  | .refresh i => m.present σ i .refresh
  | .revoke i => m.present σ i .revoke

/-- The answers to commands given one after the other. -/
def play (m : TokenManager) (σ : TokenSession) :
    List TokenCommand → List (Option (Outcome TokenReply))
  | [] => []
  | cmd :: cmds => (m.obey σ cmd).1 :: m.play (m.obey σ cmd).2 cmds

end TokenManager

/-! ### Ledgers -/

namespace Ledger

/-- What there is to know of a token besides its value and identifier. -/
structure Entry where
  claims : Claims
  kind : TokenKind
  issuedAt : Instant
  expiresAt : Instant
  revoked : Bool

def Entry.strike (e : Entry) : Entry := { e with revoked := true }

inductive Reply
  | token (r : Except TokenError Entry)
  | verdict (r : Except VerificationFailure Entry)
  | pair (r : Except TokenError (Entry × Entry))
  | revoked

end Ledger

/-- The clock, and the tokens in the order in which they were handed out. -/
structure Ledger where
  clock : Instant
  entries : List Ledger.Entry

namespace Ledger

variable (life : TokenKind → Int)

/-- A new entry, if its expiry is representable. -/
def issue (l : Ledger) (c : Claims) (kind : TokenKind) : Option Entry :=
  (l.clock.wholeSecond.addSeconds? (life kind)).map fun expiresAt =>
    ⟨c, kind, l.clock.wholeSecond, expiresAt, false⟩

def add (l : Ledger) (e : Entry) : Ledger := { l with entries := l.entries ++ [e] }

def strike (l : Ledger) (i : Nat) : Ledger := { l with entries := l.entries.modify i Entry.strike }

def verdict (l : Ledger) (e : Entry) : Except VerificationFailure Entry :=
  if e.expiresAt ≤ l.clock then .error .expired
  else if e.revoked then .error .revoked
  else .ok e

def rotate (l : Ledger) (i : Nat) (e : Entry) : Outcome Reply × Ledger :=
  match l.verdict e with
  | .error f => (.done (.pair (.error (.rejected f))), l)
  | .ok _ =>
    if e.kind = .refresh then
      match l.issue life e.claims .access, l.issue life e.claims .refresh with
      | some access, some refresh =>
        (.done (.pair (.ok (access, refresh))), ((l.add access).add refresh).strike i)
      | _, _ => (.aborted, l)
    else (.done (.pair (.error (.rejected .wrongKind))), l)

def generate (l : Ledger) (c : Claims) (kind : TokenKind) : Outcome Reply × Ledger :=
  match c.check, l.issue life c kind with
  | .error f, _ => (.done (.token (.error (.invalidClaims f))), l)
  | .ok (), none => (.aborted, l)
  | .ok (), some e => (.done (.token (.ok e)), l.add e)

def revoke (l : Ledger) (i : Nat) (e : Entry) : Outcome Reply × Ledger :=
  (.done .revoked, if e.expiresAt ≤ l.clock then l else l.strike i)

def present (l : Ledger) (i : Nat) (f : Entry → Outcome Reply × Ledger) :
    Option (Outcome Reply) × Ledger :=
  match l.entries[i]? with
  | none => (none, l)
  | some e => (f e).map some id

def obey (l : Ledger) : TokenCommand → Option (Outcome Reply) × Ledger
  | .clock t => (none, { l with clock := t })
  | .generate c kind => (l.generate life c kind).map some id
  | .verify i => l.present i fun e => (.done (.verdict (l.verdict e)), l)
  | .refresh i => l.present i (l.rotate life i)
  | .revoke i => l.present i (l.revoke i)

def play (l : Ledger) : List TokenCommand → List (Option (Outcome Reply))
  | [] => []
  | cmd :: cmds => (l.obey life cmd).1 :: play (l.obey life cmd).2 cmds

theorem eq_of_verdict {l : Ledger} {e e' : Entry} (h : l.verdict e = .ok e') : e' = e := by
  unfold verdict at h
  split at h
  · cases h
  · split at h
    · cases h
    · exact (Except.ok.inj h).symm

/-- The token is the one that the entry is about. -/
structure Entry.Describes (e : Entry) (t : Token) : Prop where
  kind : t.kind = e.kind
  tenant : e.claims.tenant? = some t.tenant
  app : e.claims.app? = some t.app
  subject : ∃ s, e.claims.subject? = some s ∧ t.metadata.get? "subject_id" = some s.text
  metadata : ∀ key, key ≠ "format" → key ≠ "subject_id" → t.metadata.get? key = none
  issuedAt : t.issuedAt = e.issuedAt
  expiresAt : t.expiresAt = e.expiresAt
  whole : e.issuedAt.nanos = 0 ∨ 1000000000 ≤ e.issuedAt.nanos

end Ledger

namespace TokenManager

open Backend Ledger

/-- The verified claims and details are those of the entry, as the format shows them. -/
def ShowsEntry (m : TokenManager) (e : Entry) (v : Verified) : Prop :=
  ∃ t, e.Describes t ∧ v = ⟨e.claims, m.shown t.details⟩

/-- The reply is the ledger's, of tokens that the entries are about. -/
inductive Shows (m : TokenManager) : Ledger.Reply → TokenReply → Prop
  | token {e : Entry} {t : Token} (h : e.Describes t) : Shows m (.token (.ok e)) (.token (.ok t))
  | noToken (f : TokenError) : Shows m (.token (.error f)) (.token (.error f))
  | valid {e : Entry} {v : Verified} (h : m.ShowsEntry e v) :
    Shows m (.verdict (.ok e)) (.verdict (.ok (.ok v)))
  | invalid (f : VerificationFailure) : Shows m (.verdict (.error f)) (.verdict (.ok (.error f)))
  | pair {access refresh : Entry} {p : TokenPair} (haccess : access.Describes p.access)
    (hrefresh : refresh.Describes p.refresh) :
    Shows m (.pair (.ok (access, refresh))) (.pair (.ok p))
  | noPair (f : TokenError) : Shows m (.pair (.error f)) (.pair (.error f))
  | revoked : Shows m .revoked (.revoked (.ok ()))

/-- The answer is the ledger's. -/
inductive Answers (m : TokenManager) : Outcome Ledger.Reply → Outcome TokenReply → Prop
  | done {a : Ledger.Reply} {r : TokenReply} (h : m.Shows a r) : Answers m (.done a) (.done r)
  | aborted : Answers m .aborted .aborted

/-- Claims that verification gives back. -/
structure Readable (m : TokenManager) (c : Claims) : Prop where
  checked : c.check = .ok ()
  floatFree : c.floatFree
  exact : c.exact
  legible : m.legible c = true

/-- The token is the entry's, and the backend knows of it what the entry says. -/
structure Stands (m : TokenManager) (b : Backend) (t : Token) (e : Entry) : Prop where
  bears : m.Bears b t e.claims
  describes : e.Describes t
  readable : m.Readable e.claims
  holds : m.holds b t.id = true
  revoked : m.revoked b t.id = e.revoked

/-- The session and the ledger are about the same tokens, one by one. -/
structure Keeps (m : TokenManager) (σ : TokenSession) (l : Ledger) : Prop where
  clock : σ.backend.clock = l.clock
  reading : l.clock.IsReading
  epoch : 0 ≤ l.clock.seconds
  listed : ∀ id, σ.backend.revocations.contains id = true → m.Drew σ.backend id
  size : σ.tokens.length = l.entries.length
  stands : ∀ (i : Nat) t e, σ.tokens[i]? = some t → l.entries[i]? = some e → m.Stands σ.backend t e
  apart : ∀ (i j : Nat) t t', σ.tokens[i]? = some t → σ.tokens[j]? = some t' → t.id = t'.id → i = j

/-- A request is answered as by the ledger, and the session stays with the ledger. -/
def Matches (m : TokenManager) (x : Outcome Ledger.Reply × Ledger)
    (y : Outcome TokenReply × TokenSession) : Prop :=
  m.Answers x.1 y.1 ∧ m.Keeps y.2 x.2

variable {m : TokenManager} {b b' : Backend} {t : Token} {e : Entry} {σ : TokenSession} {l : Ledger}
  {c : Claims} {kind : TokenKind}

theorem Readable.plain (h : m.Readable c) : c.Plain :=
  Claims.plain_of_check h.checked h.floatFree h.exact

theorem Readable.hasScope (h : m.Readable c) : c.hasScope :=
  (Claims.check_eq_ok.1 h.checked).2.1

/-! ### Verification -/

theorem Stands.verdict (h : m.Stands b t e) (hclock : b.clock = l.clock)
    (hdistinct : b.supply.Distinct m.primitives b.drawn) :
    m.verdict b t.value = (l.verdict e).map fun e => ⟨e.claims, m.shown t.details⟩ := by
  rw [h.bears.verdict h.readable.plain h.readable.hasScope hdistinct, h.readable.legible, h.holds,
    h.revoked, h.describes.expiresAt, hclock]
  unfold Ledger.verdict
  by_cases hexpired : e.expiresAt ≤ l.clock
  · simp [hexpired, Except.map]
  · cases e.revoked <;> simp [hexpired, Except.map]

theorem Stands.verdict_error (h : m.Stands b t e) (hclock : b.clock = l.clock)
    (hdistinct : b.supply.Distinct m.primitives b.drawn) {f : VerificationFailure}
    (hf : m.verdict b t.value = .error f) : l.verdict e = .error f := by
  rw [h.verdict hclock hdistinct] at hf
  cases hverdict : l.verdict e with
  | error f' =>
    rw [hverdict] at hf
    have hf' : (.error f' : Except VerificationFailure Verified) = .error f := hf
    rw [Except.error.inj hf']
  | ok e' =>
    rw [hverdict] at hf
    cases hf

theorem Stands.verdict_ok (h : m.Stands b t e) (hclock : b.clock = l.clock)
    (hdistinct : b.supply.Distinct m.primitives b.drawn) {v : Verified}
    (hv : m.verdict b t.value = .ok v) :
    l.verdict e = .ok e ∧ v = ⟨e.claims, m.shown t.details⟩ := by
  rw [h.verdict hclock hdistinct] at hv
  obtain ⟨e', he', rfl⟩ := Except.map_eq_ok.1 hv
  obtain rfl := Ledger.eq_of_verdict he'
  exact ⟨he', rfl⟩

theorem Stands.found (h : m.Stands b t e)
    (hdistinct : b.supply.Distinct m.primitives b.drawn) :
    m.found b t.value =
      .ok (⟨e.claims, m.shown t.details⟩, m.hasStore && b.store.isRevoked t.id) := by
  rw [h.bears.found h.readable.plain hdistinct, h.readable.legible, h.holds]
  rfl

/-- What a backend knows of a token stays if nothing about the token changes. -/
theorem Stands.agrees (h : m.Stands b t e) (hbears : m.Bears b' t e.claims)
    (hagrees : b.Agrees b' t.id) : m.Stands b' t e :=
  { h with
    bears := hbears
    holds := (hagrees.holds m).trans h.holds
    revoked := (hagrees.revoked m).trans h.revoked }

/-! ### Issuing -/

theorem Issues.describes (h : m.Issues c kind b t b') (hclock : b.clock = l.clock)
    (hread : l.clock.IsReading) (he : l.issue m.settings.lifetime c kind = some e) :
    e.Describes t ∧ e.claims = c ∧ e.revoked = false := by
  obtain ⟨expiresAt, hexpires, rfl⟩ := Option.map_eq_some_iff.1 he
  have hexpires' := h.expiresAt
  rw [h.issuedAt, hclock, hexpires] at hexpires'
  refine ⟨⟨h.of_kind, h.tenant, h.app, h.subject, h.metadata, by rw [h.issuedAt, hclock],
    (Option.some.inj hexpires').symm, ?_⟩, rfl, rfl⟩
  unfold Instant.IsReading at hread
  show l.clock.nanos - l.clock.nanos % 1000000000 = 0 ∨
    1000000000 ≤ l.clock.nanos - l.clock.nanos % 1000000000
  omega

theorem Keeps.entry (h : m.Keeps σ l) {i : Nat} (ht : σ.tokens[i]? = some t) :
    ∃ e, l.entries[i]? = some e ∧ m.Stands σ.backend t e := by
  obtain ⟨hlt, -⟩ := List.getElem?_eq_some_iff.1 ht
  have he := List.getElem?_eq_getElem (l := l.entries) (h.size ▸ hlt)
  exact ⟨_, he, h.stands i t _ ht he⟩

/-- After a token was issued, the tokens that are there stand as before. -/
theorem Keeps.issued (h : m.Keeps σ l) (hi : m.Issues c kind σ.backend t b')
    (hdistinct : σ.backend.supply.Distinct m.primitives b'.drawn) : m.Keeps ⟨b', σ.tokens⟩ l := by
  have hdrawn : σ.backend.drawn < b'.drawn := by rw [hi.drawn_eq]; exact Nat.lt_succ_self _
  refine { h with clock := hi.clock_eq.trans h.clock, listed := fun id hid => ?_,
                  stands := fun i t' e ht' he => ?_ }
  · have hrevocations : b'.revocations = σ.backend.revocations := by rw [hi.after, keep_revocations]
    rw [hrevocations] at hid
    exact (h.listed id hid).changes hi.changes
  · have hstands := h.stands i t' e ht' he
    refine hstands.agrees (hstands.bears.changes hi.changes hdistinct) (hi.agrees ?_)
    rw [hi.id_eq]
    exact hstands.bears.drew.ne_idAt (Nat.le_refl _) hdrawn hdistinct

/-- A new token takes its place behind the others. -/
theorem Keeps.add (h : m.Keeps σ l) (hlife : ∀ kind, 0 < m.settings.lifetime kind)
    (hissues : m.Issues c kind σ.backend t b') (he : l.issue m.settings.lifetime c kind = some e)
    (hc : m.Readable c) (hdistinct : σ.backend.supply.Distinct m.primitives b'.drawn) :
    m.Keeps ⟨b', σ.tokens ++ [t]⟩ (l.add e) := by
  have hkeeps := h.issued hissues hdistinct
  have hdrawn : σ.backend.drawn < b'.drawn := by rw [hissues.drawn_eq]; exact Nat.lt_succ_self _
  have hread : σ.backend.clock.IsReading := h.clock ▸ h.reading
  have hepoch : 0 ≤ σ.backend.clock.seconds := h.clock ▸ h.epoch
  obtain ⟨hdescribes, rfl, hclean⟩ := hissues.describes h.clock h.reading he
  have hne : ∀ (i : Nat) t', σ.tokens[i]? = some t' → t'.id ≠ t.id := by
    intro i t' ht'
    obtain ⟨e', -, hstands⟩ := h.entry ht'
    rw [hissues.id_eq]
    exact hstands.bears.drew.ne_idAt (Nat.le_refl _) hdrawn hdistinct
  have hstands : m.Stands b' t e := by
    refine ⟨hissues.bears hlife hread (Int.le_trans (by decide) hepoch) ?_ (hdistinct.named _ hdrawn),
      hdescribes, hc, hissues.holds, ?_⟩
    · have := hlife kind
      omega
    · -- The identifier is on the list only if it was drawn before.
      rw [hissues.revoked, hclean, hissues.id_eq, Bool.eq_false_iff]
      intro hlisted
      exact (h.listed _ hlisted).ne_idAt (Nat.le_refl _) hdrawn hdistinct rfl
  refine { hkeeps with size := ?_, stands := fun i t' e' ht' he' => ?_,
                       apart := fun i j t₁ t₂ h₁ h₂ hid => ?_ }
  · simp [Ledger.add, h.size]
  · replace ht' := getElem?_concat_eq_some.1 ht'
    replace he' := getElem?_concat_eq_some.1 he'
    have hsize := h.size
    rcases ht' with ht' | ⟨hi, rfl⟩
    · have hlt := (List.getElem?_eq_some_iff.1 ht').1
      rcases he' with he' | ⟨hi, -⟩
      · exact hkeeps.stands i t' e' ht' he'
      · omega
    · rcases he' with he' | ⟨-, rfl⟩
      · have hlt := (List.getElem?_eq_some_iff.1 he').1
        omega
      · exact hstands
  · replace h₁ := getElem?_concat_eq_some.1 h₁
    replace h₂ := getElem?_concat_eq_some.1 h₂
    rcases h₁ with h₁ | ⟨hi, rfl⟩
    · rcases h₂ with h₂ | ⟨hj, rfl⟩
      · exact h.apart i j t₁ t₂ h₁ h₂ hid
      · exact absurd hid (hne i t₁ h₁)
    · rcases h₂ with h₂ | ⟨hj, rfl⟩
      · exact absurd hid.symm (hne j t₂ h₂)
      · rw [hi, hj]

/-! ### Revoking -/

/-- `b'` is `b` with the token of this identifier revoked. -/
structure Strikes (m : TokenManager) (b b' : Backend) (id : TokenId) : Prop where
  changes : m.Changes b b'
  clock_eq : b'.clock = b.clock
  drawn_eq : b'.drawn = b.drawn
  others : ∀ id', id' ≠ id → b.Agrees b' id'
  struck : m.revoked b' id = true
  holds : m.holds b' id = m.holds b id
  listed : ∀ id', b'.revocations.contains id' = true →
    id' = id ∨ b.revocations.contains id' = true

theorem strikes_listed (m : TokenManager) (b : Backend) (id : TokenId) (time : Instant) :
    m.Strikes b { b with revocations := (b.revocations.add id time).2 } id where
  changes := .single (.revoke b id time)
  clock_eq := rfl
  drawn_eq := rfl
  others _ hne := agrees_add b hne time
  struck := by simp [TokenManager.revoked, RevocationList.contains_add]
  holds := rfl
  listed id' h := by simpa [RevocationList.contains_add] using h

theorem strikes_marked (m : TokenManager) (b : Backend) (id : TokenId) (s : SubjectId)
    (time now : Instant) :
    m.Strikes b
      { b with
        revocations := (b.revocations.add id time).2
        store := (b.store.revoke s id now).2 } id where
  changes := .head (.revoke b id time) (.single (.mark _ s id now))
  clock_eq := rfl
  drawn_eq := rfl
  others _ hne := (agrees_add b hne time).trans (agrees_revoke _ s hne now)
  struck := by simp [TokenManager.revoked, RevocationList.contains_add]
  holds := by
    unfold TokenManager.holds
    simp only [TokenStore.find?_revoke, Option.isSome_map]
  listed id' h := by simpa [RevocationList.contains_add] using h

theorem strikes_retired (m : TokenManager) (b : Backend) (v : Verified) :
    m.Strikes b (m.retired b v) v.details.id := by
  unfold retired marked
  split
  · exact strikes_marked ..
  · exact strikes_listed ..

/-- Revoking a value that is found succeeds, and has an effect until the token expires. -/
theorem Revokes.strikes {value : String} {o : Outcome (Except TokenError Unit)} {v : Verified}
    {marked : Bool} (h : m.Revokes value b o b') (hfound : m.found b value = .ok (v, marked)) :
    o = .done (.ok ()) ∧
      ((v.details.expiresAt ≤ b.clock ∧ b' = b) ∨
        (b.clock < v.details.expiresAt ∧ m.Strikes b b' v.details.id)) := by
  cases h with
  | rejected h =>
    rw [h] at hfound
    cases hfound
  | unknown hbacking h =>
    rw [h] at hfound
    cases hfound
  | expired h hexpired =>
    rw [h] at hfound
    obtain ⟨rfl, -⟩ := Prod.mk.inj (Except.ok.inj hfound)
    exact ⟨rfl, .inl ⟨hexpired, rfl⟩⟩
  | signed hbacking h hlive =>
    rw [found_of_decode hbacking h] at hfound
    obtain ⟨rfl, -⟩ := Prod.mk.inj (Except.ok.inj hfound)
    exact ⟨rfl, .inr ⟨hlive, strikes_listed ..⟩⟩
  | stored hbacking h hlive =>
    have hid := idOf?_of_found hfound
    rw [TokenManager.found, hbacking] at hfound
    simp only [h] at hfound
    split at hfound
    · obtain ⟨rfl, -⟩ := Prod.mk.inj (Except.ok.inj hfound)
      rw [idOf?, hbacking] at hid
      rw [← Option.some.inj hid]
      exact ⟨rfl, .inr ⟨hlive, strikes_marked ..⟩⟩
    · cases hfound

/-- The entry of a token that is revoked is struck. -/
theorem Keeps.strike (h : m.Keeps σ l) {i : Nat} (ht : σ.tokens[i]? = some t)
    (hs : m.Strikes σ.backend b' t.id)
    (hdistinct : σ.backend.supply.Distinct m.primitives b'.drawn) :
    m.Keeps ⟨b', σ.tokens⟩ (l.strike i) := by
  refine { h with clock := hs.clock_eq.trans h.clock, listed := fun id hid => ?_, size := ?_,
                  stands := fun j t' e' ht' he' => ?_ }
  · obtain ⟨e, -, hstands⟩ := h.entry ht
    rcases hs.listed id hid with rfl | hid
    · exact hstands.bears.drew.changes hs.changes
    · exact (h.listed id hid).changes hs.changes
  · simp [Ledger.strike, h.size]
  · rw [Ledger.strike, List.getElem?_modify] at he'
    obtain ⟨e, he, rfl⟩ := Option.map_eq_some_iff.1 he'
    have hstands := h.stands j t' e ht' he
    have hbears := hstands.bears.changes hs.changes hdistinct
    split
    next hij =>
      subst hij
      obtain rfl := Option.some.inj (ht.symm.trans ht')
      exact ⟨hbears, { hstands.describes with }, hstands.readable, hs.holds.trans hstands.holds,
        hs.struck⟩
    next hij =>
      have hne : t'.id ≠ t.id := fun hid => hij (h.apart i j t t' ht ht' hid.symm)
      exact hstands.agrees hbears (hs.others _ hne)

/-! ### Commands -/

/-- The clock shows times from 1970 on, and verification gives the claims back. -/
def CanKeep (m : TokenManager) : TokenCommand → Prop
  | .clock t => t.IsReading ∧ 0 ≤ t.seconds
  | .generate c _ => c.floatFree ∧ c.exact ∧ m.legible c = true
  | .verify _ | .refresh _ | .revoke _ => True

theorem Issues.issue_eq (h : m.Issues c kind b t b') (hclock : b.clock = l.clock) :
    l.issue m.settings.lifetime c kind =
      some ⟨c, kind, l.clock.wholeSecond, t.expiresAt, false⟩ := by
  have hexpires := h.expiresAt
  rw [h.issuedAt, hclock] at hexpires
  rw [Ledger.issue, hexpires]
  rfl

theorem Keeps.generate (h : m.Keeps σ l) (hlife : ∀ kind, 0 < m.settings.lifetime kind)
    (hc : c.floatFree ∧ c.exact ∧ m.legible c = true)
    (hdistinct : σ.backend.supply.Distinct m.primitives
      (m.attend σ (.generate c kind)).2.backend.drawn) :
    m.Matches (l.generate m.settings.lifetime c kind) (m.attend σ (.generate c kind)) := by
  simp only [attend, Backend.serve, TokenManager.serve, run_reply, TokenManager.generate,
    Ledger.generate] at hdistinct ⊢
  cases hcheck : c.check with
  | error f =>
    simp only [TokenEvent.issued, TokenReply.tokens, exec_throw, Outcome.map, List.append_nil]
    exact ⟨.done (.noToken _), h⟩
  | ok u =>
    rw [hcheck] at hdistinct
    simp only at hdistinct ⊢
    rcases exec_issue_of_check hcheck kind σ.backend with ⟨t, b', he, hissues⟩ | ⟨he, hnone⟩ <;>
      rw [he] at hdistinct ⊢
    · have hissue := hissues.issue_eq h.clock
      rw [hissue]
      exact ⟨.done (.token (hissues.describes h.clock h.reading hissue).1),
        h.add hlife hissues hissue ⟨hcheck, hc.1, hc.2.1, hc.2.2⟩ hdistinct⟩
    · have hissue : l.issue m.settings.lifetime c kind = none := by
        rw [Ledger.issue, ← h.clock, hnone]
        rfl
      rw [hissue]
      simp only [TokenEvent.issued, Outcome.map, List.append_nil]
      exact ⟨.aborted, h⟩

theorem Keeps.verify (h : m.Keeps σ l) (hs : m.Stands σ.backend t e)
    (hdistinct : σ.backend.supply.Distinct m.primitives σ.backend.drawn) :
    m.Matches (.done (.verdict (l.verdict e)), l) (m.attend σ (.verify t.value)) := by
  simp only [attend, serve_verify, TokenEvent.issued, TokenReply.tokens, List.append_nil]
  refine ⟨.done ?_, h⟩
  cases hv : m.verdict σ.backend t.value with
  | error f =>
    rw [hs.verdict_error h.clock hdistinct hv]
    exact .invalid f
  | ok v =>
    obtain ⟨hverdict, hshown⟩ := hs.verdict_ok h.clock hdistinct hv
    rw [hverdict]
    exact .valid ⟨t, hs.describes, hshown⟩

theorem Keeps.revoke (h : m.Keeps σ l) {i : Nat} (ht : σ.tokens[i]? = some t)
    (hs : m.Stands σ.backend t e)
    (hdistinct : σ.backend.supply.Distinct m.primitives σ.backend.drawn) :
    m.Matches (l.revoke i e) (m.attend σ (.revoke t.value)) := by
  have hrevokes := exec_revoke m t.value σ.backend
  simp only [attend, Backend.serve, TokenManager.serve, run_reply]
  generalize (σ.backend.exec (m.revoke t.value)).1 = o at hrevokes ⊢
  generalize (σ.backend.exec (m.revoke t.value)).2 = b' at hrevokes ⊢
  obtain ⟨rfl, heffect⟩ := hrevokes.strikes (hs.found hdistinct)
  have hexpires : (m.shown t.details).expiresAt = e.expiresAt :=
    (shown_expiresAt ..).trans hs.describes.expiresAt
  have hid : (m.shown t.details).id = t.id := shown_id ..
  rw [hexpires, hid, h.clock] at heffect
  simp only [Outcome.map, TokenEvent.issued, TokenReply.tokens, List.append_nil]
  refine ⟨.done .revoked, ?_⟩
  rw [Ledger.revoke]
  rcases heffect with ⟨hexpired, rfl⟩ | ⟨hlive, hstrikes⟩
  · rw [if_pos hexpired]
    exact h
  · rw [if_neg (Instant.not_le.2 hlive)]
    exact h.strike ht hstrikes (hstrikes.drawn_eq ▸ hdistinct)

theorem Keeps.rotate (h : m.Keeps σ l) (hlife : ∀ kind, 0 < m.settings.lifetime kind) {i : Nat}
    (ht : σ.tokens[i]? = some t) (hs : m.Stands σ.backend t e)
    (hdistinct : σ.backend.supply.Distinct m.primitives
      (m.attend σ (.refresh t.value)).2.backend.drawn) :
    m.Matches (l.rotate m.settings.lifetime i e) (m.attend σ (.refresh t.value)) := by
  have hrotates := exec_refresh m t.value σ.backend
  simp only [attend, Backend.serve, TokenManager.serve, run_reply] at hdistinct ⊢
  generalize (σ.backend.exec (m.refresh t.value)).1 = o at hrotates hdistinct ⊢
  generalize (σ.backend.exec (m.refresh t.value)).2 = b' at hrotates hdistinct ⊢
  have hdistinct₀ := hdistinct.mono (Changes.drawn_le hrotates.changes)
  have hkind : (m.shown t.details).kind = e.kind := (shown_kind ..).trans hs.describes.kind
  have hid : (m.shown t.details).id = t.id := shown_id ..
  rw [Ledger.rotate]
  cases hrotates with
  | rejected hv =>
    rw [hs.verdict_error h.clock hdistinct₀ hv]
    simp only [Outcome.map, TokenEvent.issued, TokenReply.tokens, List.append_nil]
    exact ⟨.done (.noPair _), h⟩
  | wrongKind hv hne =>
    obtain ⟨hverdict, rfl⟩ := hs.verdict_ok h.clock hdistinct₀ hv
    rw [hverdict]
    simp only [if_neg (hkind ▸ hne), Outcome.map, TokenEvent.issued, TokenReply.tokens,
      List.append_nil]
    exact ⟨.done (.noPair _), h⟩
  | incomplete hv hnone =>
    obtain ⟨-, rfl⟩ := hs.verdict_ok h.clock hdistinct₀ hv
    exact absurd hnone (Claims.complete_of_check hs.readable.checked)
  | aborted hv hrefresh hnone =>
    obtain ⟨hverdict, rfl⟩ := hs.verdict_ok h.clock hdistinct₀ hv
    rw [hverdict]
    have hissue : l.issue m.settings.lifetime e.claims .access = none := by
      rw [Ledger.issue, ← h.clock, hnone]
      rfl
    simp only [if_pos (hkind ▸ hrefresh), hissue, Outcome.map, TokenEvent.issued, List.append_nil]
    exact ⟨.aborted, h⟩
  | halfway hv hrefresh haccess hnone =>
    obtain ⟨hverdict, rfl⟩ := hs.verdict_ok h.clock hdistinct₀ hv
    rw [hverdict]
    have hissue : l.issue m.settings.lifetime e.claims .refresh = none := by
      rw [Ledger.issue, ← h.clock, ← haccess.clock_eq, hnone]
      rfl
    simp only [if_pos (hkind ▸ hrefresh), haccess.issue_eq h.clock, hissue, Outcome.map,
      TokenEvent.issued, List.append_nil]
    exact ⟨.aborted, h.issued haccess hdistinct⟩
  | @rotated v pair b₁ b₂ hv hrefreshKind haccess hrefresh =>
    obtain ⟨hverdict, rfl⟩ := hs.verdict_ok h.clock hdistinct₀ hv
    rw [hverdict]
    have hclock₁ : b₁.clock = l.clock := haccess.clock_eq.trans h.clock
    have hissue₁ := haccess.issue_eq h.clock
    have hissue₂ := hrefresh.issue_eq hclock₁
    simp only [if_pos (hkind ▸ hrefreshKind), hissue₁, hissue₂, Outcome.map, TokenEvent.issued,
      TokenReply.tokens]
    refine ⟨.done (.pair (haccess.describes h.clock h.reading hissue₁).1
      (hrefresh.describes hclock₁ h.reading hissue₂).1), ?_⟩
    have hdistinct₂ : σ.backend.supply.Distinct m.primitives b₂.drawn := hdistinct
    have hdistinct₁ : b₁.supply.Distinct m.primitives b₂.drawn := by
      rw [haccess.supply_eq]
      exact hdistinct₂
    have hkeeps₁ := h.add hlife haccess hissue₁ hs.readable
      (hdistinct₂.mono (Changes.drawn_le hrefresh.changes))
    have hkeeps₂ := hkeeps₁.add hlife hrefresh hissue₂ hs.readable hdistinct₁
    have ht₂ : (σ.tokens ++ [pair.access] ++ [pair.refresh])[i]? = some t := by
      rw [getElem?_concat_eq_some, getElem?_concat_eq_some]
      exact .inl (.inl ht)
    have hstrikes := strikes_retired m b₂ ⟨e.claims, m.shown t.details⟩
    rw [hid] at hstrikes
    have hkeeps := hkeeps₂.strike ht₂ hstrikes (by rw [hrefresh.supply_eq]; exact hdistinct₁)
    rwa [List.append_assoc] at hkeeps

theorem drawn_le_attend (m : TokenManager) (σ : TokenSession) (q : TokenRequest) :
    σ.backend.drawn ≤ (m.attend σ q).2.backend.drawn :=
  Changes.drawn_le (changes_serve m q σ.backend)

theorem Keeps.present (h : m.Keeps σ l) {i : Nat} {q : String → TokenRequest}
    {f : Entry → Outcome Ledger.Reply × Ledger}
    (hdistinct : σ.backend.supply.Distinct m.primitives (m.present σ i q).2.backend.drawn)
    (hmatches : ∀ t e, σ.tokens[i]? = some t → m.Stands σ.backend t e →
      σ.backend.supply.Distinct m.primitives (m.attend σ (q t.value)).2.backend.drawn →
      m.Matches (f e) (m.attend σ (q t.value))) :
    Option.Rel m.Answers (l.present i f).1 (m.present σ i q).1 ∧
      m.Keeps (m.present σ i q).2 (l.present i f).2 := by
  unfold TokenManager.present at hdistinct ⊢
  unfold Ledger.present
  cases ht : σ.tokens[i]? with
  | none =>
    have he : l.entries[i]? = none := by
      rw [List.getElem?_eq_none_iff, ← h.size]
      exact List.getElem?_eq_none_iff.1 ht
    rw [he]
    exact ⟨.none, h⟩
  | some t =>
    obtain ⟨e, he, hs⟩ := h.entry ht
    rw [ht] at hdistinct
    rw [he]
    obtain ⟨hanswers, hkeeps⟩ := hmatches t e ht hs hdistinct
    exact ⟨.some hanswers, hkeeps⟩

/-- Every command is answered as the ledger answers it, and the session stays with the ledger. -/
theorem Keeps.obey (h : m.Keeps σ l) (hlife : ∀ kind, 0 < m.settings.lifetime kind)
    {cmd : TokenCommand} (hcmd : m.CanKeep cmd)
    (hdistinct : σ.backend.supply.Distinct m.primitives (m.obey σ cmd).2.backend.drawn) :
    Option.Rel m.Answers (l.obey m.settings.lifetime cmd).1 (m.obey σ cmd).1 ∧
      m.Keeps (m.obey σ cmd).2 (l.obey m.settings.lifetime cmd).2 := by
  cases cmd with
  | clock t =>
    refine ⟨.none, { h with clock := rfl, reading := hcmd.1, epoch := hcmd.2,
                            stands := fun i t' e ht' he => ?_ }⟩
    have hs := h.stands i t' e ht' he
    exact { hs with bears := { hs.bears with } }
  | generate c kind =>
    obtain ⟨hanswers, hkeeps⟩ := h.generate hlife hcmd hdistinct
    exact ⟨.some hanswers, hkeeps⟩
  | verify i =>
    exact h.present hdistinct fun t e _ hs hd => h.verify hs (hd.mono (drawn_le_attend ..))
  | refresh i => exact h.present hdistinct fun t e ht hs hd => h.rotate hlife ht hs hd
  | revoke i =>
    exact h.present hdistinct fun t e ht hs hd =>
      h.revoke ht hs (hd.mono (drawn_le_attend ..))

/-! ### Scripts of commands -/

theorem supply_obey (m : TokenManager) (σ : TokenSession) (cmd : TokenCommand) :
    (m.obey σ cmd).2.backend.supply = σ.backend.supply := by
  have hattend : ∀ q, (m.attend σ q).2.backend.supply = σ.backend.supply := fun q =>
    Changes.supply_eq (changes_serve m q σ.backend)
  have hpresent : ∀ i q, (m.present σ i q).2.backend.supply = σ.backend.supply := by
    intro i q
    unfold present
    split
    · rfl
    · exact hattend _
  cases cmd with
  | clock t => rfl
  | generate c kind => exact hattend _
  | _ => exact hpresent ..

/-- A command draws at most twice. -/
theorem drawn_obey (m : TokenManager) (σ : TokenSession) (cmd : TokenCommand) :
    (m.obey σ cmd).2.backend.drawn ≤ σ.backend.drawn + 2 := by
  have hpresent : ∀ (i : Nat) (q : String → TokenRequest),
      (∀ value, (σ.backend.serve m (q value)).2.drawn ≤ σ.backend.drawn + 2) →
      (m.present σ i q).2.backend.drawn ≤ σ.backend.drawn + 2 := by
    intro i q hq
    unfold present
    split
    · exact Nat.le_add_right ..
    · exact hq _
  cases cmd with
  | clock t => exact Nat.le_add_right ..
  | generate c kind =>
    show (σ.backend.serve m (.generate c kind)).2.drawn ≤ σ.backend.drawn + 2
    simp only [Backend.serve, TokenManager.serve, run_reply, TokenManager.generate]
    split
    · rcases exec_issue m c kind σ.backend with ⟨t, b', he, hissues⟩ | ⟨he, -⟩ | ⟨he, -⟩ <;> rw [he]
      · have := hissues.drawn_eq
        show b'.drawn ≤ _
        omega
      · exact Nat.le_add_right ..
      · exact Nat.le_add_right ..
    · exact Nat.le_add_right ..
  | verify i =>
    refine hpresent i _ fun value => ?_
    rw [serve_verify]
    exact Nat.le_add_right ..
  | refresh i =>
    refine hpresent i _ fun value => ?_
    simp only [Backend.serve, TokenManager.serve, run_reply]
    exact (exec_refresh m value σ.backend).drawn_le
  | revoke i =>
    refine hpresent i _ fun value => ?_
    simp only [Backend.serve, TokenManager.serve, run_reply]
    rw [(exec_revoke m value σ.backend).drawn_eq]
    exact Nat.le_add_right ..

/-- A session that starts with the ledger is answered all along as by the ledger. -/
theorem Keeps.play (h : m.Keeps σ l) (hlife : ∀ kind, 0 < m.settings.lifetime kind)
    {cmds : List TokenCommand} (hcmds : ∀ cmd ∈ cmds, m.CanKeep cmd)
    (hdistinct : σ.backend.supply.Distinct m.primitives (σ.backend.drawn + 2 * cmds.length)) :
    List.Forall₂ (Option.Rel m.Answers) (l.play m.settings.lifetime cmds) (m.play σ cmds) := by
  induction cmds generalizing σ l with
  | nil => exact .nil
  | cons cmd cmds ih =>
    have hdrawn := drawn_obey m σ cmd
    rw [List.length_cons] at hdistinct
    obtain ⟨hanswers, hkeeps⟩ := h.obey hlife (hcmds cmd List.mem_cons_self)
      (hdistinct.mono (by omega))
    refine .cons hanswers (ih hkeeps (fun cmd' hcmd' => hcmds cmd' (List.mem_cons_of_mem _ hcmd')) ?_)
    rw [supply_obey]
    exact hdistinct.mono (by omega)

theorem keeps_new (m : TokenManager) {start : Instant} (supply : Supply) (hread : start.IsReading)
    (hepoch : 0 ≤ start.seconds) : m.Keeps ⟨.new start supply, []⟩ ⟨start, []⟩ where
  clock := rfl
  reading := hread
  epoch := hepoch
  listed _ h := by cases h
  size := rfl
  stands _ _ _ h := by simp at h
  apart _ _ _ _ h := by simp at h

end TokenManager

end AccessControl
