import AccessControl.Token.Backend
import AccessControl.Token.Manager
import AccessControl.Token.Sweep

/-!
# Token operations one at a time

What each operation of a token manager does when it runs alone on a backend that never fails:
verification reads and changes nothing (`exec_verify`), and for every other operation one relation
lists its endings, each with the backend that it leaves (`Issues`, `Rotates`, `Revokes`).
-/

namespace AccessControl

namespace Backend

variable {α β : Type}

theorem run_bind (p : Procedure α) (f : α → Procedure β) (b : Backend) :
    b.run (p.bind f) = match b.run p with
      | (.done a, b) => b.run (f a)
      | (.aborted, b) => (.aborted, b)
      | (.stuck, b) => (.stuck, b) := by
  unfold run
  rw [Procedure.run_bind]
  rcases Procedure.run _ p b with ⟨_ | _ | _, b'⟩ <;> rfl

@[simp] theorem run_done (a : α) (b : Backend) : b.run (.done a) = (.done a, b) := rfl

@[simp] theorem run_abort (b : Backend) : b.run (.abort : Procedure α) = (.aborted, b) := rfl

def exec (b : Backend) (x : Operation α) : Outcome (Except TokenError α) × Backend := b.run x.run

theorem exec_bind (x : Operation α) (f : α → Operation β) (b : Backend) :
    b.exec (x >>= f) = match b.exec x with
      | (.done (.ok a), b) => b.exec (f a)
      | (.done (.error e), b) => (.done (.error e), b)
      | (.aborted, b) => (.aborted, b)
      | (.stuck, b) => (.stuck, b) := by
  show b.run (Procedure.bind x.run _) = _
  rw [run_bind, exec]
  rcases b.run x.run with ⟨_ | _ | _, b'⟩
  · rename_i r; cases r <;> rfl
  · rfl
  · rfl

@[simp] theorem exec_pure (a : α) (b : Backend) :
    b.exec (pure a : Operation α) = (.done (.ok a), b) := rfl

@[simp] theorem exec_throw (e : TokenError) (b : Backend) :
    b.exec (throw e : Operation α) = (.done (.error e), b) := rfl

theorem exec_findRecord (fault : CallFault → TokenError) (id : TokenId) (b : Backend) :
    b.exec (Operation.checked fault (Procedure.boundCall (.findRecord id))) =
      (.done (.ok (b.store.find? id)), b) := rfl

theorem exec_listRecords (fault : CallFault → TokenError) (t : TenantId) (s : SubjectId)
    (b : Backend) :
    b.exec (Operation.checked fault (Procedure.boundCall (.listRecords t s))) =
      (.done (.ok (b.store.list t s)), b) := rfl

theorem exec_revokeRecord (fault : CallFault → TokenError) (s : SubjectId) (id : TokenId)
    (t : Instant) (b : Backend) :
    b.exec (Operation.checked fault (Procedure.boundCall (.revokeRecord s id t))) =
      (.done ((owned (b.store.revoke s id t).1).mapError fault),
        { b with store := (b.store.revoke s id t).2 }) := rfl

theorem exec_addRevocation (fault : CallFault → TokenError) (id : TokenId) (t : Instant)
    (b : Backend) :
    b.exec (Operation.checked fault (Procedure.boundCall (.addRevocation id t))) =
      (.done (.ok (b.revocations.add id t).1), { b with revocations := (b.revocations.add id t).2 }) :=
  rfl

theorem exec_findRevocation (fault : CallFault → TokenError) (id : TokenId) (b : Backend) :
    b.exec (Operation.checked fault (Procedure.boundCall (.findRevocation id))) =
      (.done (.ok (b.revocations.contains id)), b) := rfl

theorem exec_now (b : Backend) :
    b.exec (liftM (Procedure.call .now) : Operation Instant) = (.done (.ok b.clock), b) := rfl

theorem exec_lift (p : Procedure α) (b : Backend) :
    b.exec (liftM p : Operation α) = match b.run p with
      | (.done a, b) => (.done (.ok a), b)
      | (.aborted, b) => (.aborted, b)
      | (.stuck, b) => (.stuck, b) := by
  show b.run (Procedure.bind p _) = _
  rw [run_bind]
  rcases b.run p with ⟨_ | _ | _, b'⟩ <;> rfl

theorem exec_representable_some (t : Instant) (b : Backend) :
    b.exec (Operation.representable (some t)) = (.done (.ok t), b) := rfl

theorem exec_tryCatch (x : Operation α) (f : TokenError → Operation α) (b : Backend) :
    b.exec (tryCatch x f) = match b.exec x with
      | (.done (.ok a), b) => (.done (.ok a), b)
      | (.done (.error e), b) => b.exec (f e)
      | (.aborted, b) => (.aborted, b)
      | (.stuck, b) => (.stuck, b) := by
  show b.run (Procedure.bind x.run _) = _
  rw [run_bind, exec]
  rcases b.run x.run with ⟨_ | _ | _, b'⟩
  · rename_i r; cases r <;> rfl
  · rfl
  · rfl

/-- The records of a subject that a call which revokes all of them is about. -/
def liveRecords (b : Backend) (t : TenantId) (s : SubjectId) : List TokenRecord :=
  (b.store.list t s).filter (·.isLive b.clock)

theorem mem_liveRecords {b : Backend} {t : TenantId} {s : SubjectId} {r : TokenRecord} :
    r ∈ b.liveRecords t s ↔ b.store.find? r.id = some r ∧ r.tenant = t ∧ r.subject = s ∧
      r.revokedAt = none ∧ b.clock < r.expiresAt := by
  have hfind : (∃ id, b.store.find? id = some r) ↔ b.store.find? r.id = some r := by
    constructor
    · rintro ⟨id, hid⟩
      rw [TokenStore.id_of_find? hid]
      exact hid
    · exact fun h => ⟨r.id, h⟩
  have hlive : r.isLive b.clock = true ↔ r.revokedAt = none ∧ b.clock < r.expiresAt := by
    rw [← Instant.not_le]
    simp [TokenRecord.isLive, TokenRecord.isRevoked, TokenRecord.isExpired]
  rw [liveRecords, List.mem_filter, TokenStore.mem_list, hfind, hlive, and_assoc, and_assoc]

end Backend

namespace Token

/-- The details under which a token verifies. -/
def details (t : Token) : TokenDetails := ⟨t.id, t.kind, t.issuedAt, t.expiresAt⟩

def record (t : Token) (c : Claims) : TokenRecord where
  id := t.id
  kind := t.kind
  subject := c.subject?.getD default
  tenant := t.tenant
  app := t.app
  claims := c
  issuedAt := t.issuedAt
  expiresAt := t.expiresAt
  revokedAt := none

end Token

namespace TokenManager

open Backend

variable {m : TokenManager} {b b' : Backend}

/-! ### Verification -/

/-- What a value stands for in a backend, and whether its record is marked as revoked. -/
def found (m : TokenManager) (b : Backend) (value : String) :
    Except VerificationFailure (Verified × Bool) :=
  match m.backing with
  | .signed k => (k.decode value).map fun v => (v, false)
  | .stored =>
    if OpaqueValue.isWellFormed value then
      match b.store.find? (OpaqueValue.id m.primitives value) with
      | none => .error .notFound
      | some r => .ok (⟨r.claims, r.details⟩, r.isRevoked)
    else .error .malformed

theorem found_of_find? {value : String} {r : TokenRecord} (hstored : m.backing = .stored)
    (hform : OpaqueValue.isWellFormed value = true)
    (h : b.store.find? (OpaqueValue.id m.primitives value) = some r) :
    m.found b value = .ok (⟨r.claims, r.details⟩, r.isRevoked) := by
  simp [found, hstored, hform, h]

theorem found_of_decode {value : String} {k : SignedCodec} {v : Verified}
    (hsigned : m.backing = .signed k) (h : k.decode value = .ok v) :
    m.found b value = .ok (v, false) := by
  simp [found, hsigned, h, Except.map]

theorem found_of_refused {value : String} {k : SignedCodec} {f : VerificationFailure}
    (hsigned : m.backing = .signed k) (h : k.decode value = .error f) :
    m.found b value = .error f := by
  simp [found, hsigned, h, Except.map]

theorem decode_of_found {value : String} {k : SignedCodec} {v : Verified} {marked : Bool}
    (hsigned : m.backing = .signed k) (h : m.found b value = .ok (v, marked)) :
    k.decode value = .ok v := by
  rw [found, hsigned] at h
  obtain ⟨v', hv', he⟩ := Except.map_eq_ok.1 h
  exact (Prod.mk.inj he).1 ▸ hv'

theorem find?_of_found {value : String} {v : Verified} {marked : Bool}
    (hstored : m.backing = .stored) (h : m.found b value = .ok (v, marked)) :
    ∃ r, b.store.find? (OpaqueValue.id m.primitives value) = some r ∧ r.id = v.details.id ∧
      v = ⟨r.claims, r.details⟩ ∧ marked = r.isRevoked := by
  simp only [found, hstored] at h
  split at h
  · split at h
    · cases h
    next r hr =>
      obtain ⟨rfl, rfl⟩ := Prod.mk.inj (Except.ok.inj h)
      exact ⟨r, hr, rfl, rfl, rfl⟩
  · cases h

theorem isWellFormed_of_found {value : String} {v : Verified} {marked : Bool}
    (hstored : m.backing = .stored) (h : m.found b value = .ok (v, marked)) :
    OpaqueValue.isWellFormed value = true := by
  simp only [found, hstored] at h
  split at h
  · assumption
  · cases h

/-- What verification says of a value in a backend. -/
def verdict (m : TokenManager) (b : Backend) (value : String) :
    Except VerificationFailure Verified :=
  match m.found b value with
  | .error f => .error f
  | .ok (v, marked) =>
    if v.details.expiresAt ≤ b.clock then .error .expired
    else if marked || b.revocations.contains v.details.id then .error .revoked
    else if v.claims.hasScope then .ok v
    else .error .missingScope

theorem exec_lookUp (m : TokenManager) (b : Backend) (value : String) :
    b.exec (m.lookUp value) = (.done (.ok (m.found b value)), b) := by
  unfold lookUp found
  cases m.backing with
  | signed k => rfl
  | stored =>
    simp only
    split
    · rw [exec_bind, exec_findRecord]
      cases b.store.find? (OpaqueValue.id m.primitives value) <;> rfl
    · rfl

theorem exec_isRevoked (id : TokenId) (marked : Bool) (b : Backend) :
    b.exec (isRevoked id marked) = (.done (.ok (marked || b.revocations.contains id)), b) := by
  unfold isRevoked
  split
  · next h => simp [h]
  · next h => simp [h, exec_findRevocation]

theorem exec_verify (m : TokenManager) (b : Backend) (value : String) :
    b.exec (m.verify value) = (.done (.ok (m.verdict b value)), b) := by
  unfold verify verdict
  rw [exec_bind, exec_lookUp]
  cases m.found b value with
  | error f => rfl
  | ok found =>
    obtain ⟨v, marked⟩ := found
    simp only
    rw [exec_bind, exec_now]
    simp only
    by_cases hexpired : v.details.expiresAt ≤ b.clock
    · rw [if_pos hexpired, if_pos hexpired]
      rfl
    · rw [if_neg hexpired, if_neg hexpired, exec_bind, exec_isRevoked]
      cases marked || b.revocations.contains v.details.id <;> cases v.claims.hasScope <;> rfl

/-! ### Issuing -/

/-- The backend after a token with this record was drawn; only opaque tokens keep the record. -/
def keep (m : TokenManager) (b : Backend) (r : TokenRecord) : Backend :=
  match m.backing with
  | .signed _ => { b with drawn := b.drawn + 1 }
  | .stored => { b with drawn := b.drawn + 1, store := b.store.insert r }

/-- The token `t` is issued for claims on `b`, which leaves `b'`. -/
structure Issues (m : TokenManager) (c : Claims) (kind : TokenKind) (b : Backend) (t : Token)
    (b' : Backend) : Prop where
  of_kind : t.kind = kind
  tenant : c.tenant? = some t.tenant
  app : c.app? = some t.app
  subject : ∃ s, c.subject? = some s ∧ t.metadata.get? "subject_id" = some s.text
  metadata : ∀ key, key ≠ "format" → key ≠ "subject_id" → t.metadata.get? key = none
  issuedAt : t.issuedAt = b.clock.wholeSecond
  expiresAt : t.issuedAt.addSeconds? (m.settings.lifetime kind) = some t.expiresAt
  signed : ∀ k, m.backing = .signed k → t.id = b.supply.id b.drawn ∧ t.value = k.encode c t.details
  stored : m.backing = .stored →
    t.value = b.supply.value b.drawn ∧ t.id = OpaqueValue.id m.primitives t.value
  after : b' = m.keep b (t.record c)

theorem exec_mint (m : TokenManager) (c : Claims) (kind : TokenKind) (tenant : TenantId)
    (app : AppId) (subject : SubjectId) (issuedAt expiresAt : Instant) (b : Backend) :
    ∃ value id, b.exec (m.mint c kind tenant app subject issuedAt expiresAt) =
        (.done (.ok (value, id)),
          m.keep b ⟨id, kind, subject, tenant, app, c, issuedAt, expiresAt, none⟩) ∧
      (∀ k, m.backing = .signed k →
        id = b.supply.id b.drawn ∧ value = k.encode c ⟨id, kind, issuedAt, expiresAt⟩) ∧
      (m.backing = .stored →
        value = b.supply.value b.drawn ∧ id = OpaqueValue.id m.primitives value) := by
  unfold mint keep
  cases m.backing with
  | signed k =>
    refine ⟨_, _, rfl, ?_, by simp⟩
    rintro _ ⟨⟩
    exact ⟨rfl, rfl⟩
  | stored => exact ⟨_, _, rfl, by simp, fun _ => ⟨rfl, rfl⟩⟩

/-- Issuing a token succeeds unless its expiry is not representable or the claims are incomplete;
in these cases nothing is drawn. -/
theorem exec_issue (m : TokenManager) (c : Claims) (kind : TokenKind) (b : Backend) :
    (∃ t b', b.exec (m.issue c kind) = (.done (.ok t), b') ∧ m.Issues c kind b t b') ∨
    (b.exec (m.issue c kind) = (.aborted, b) ∧
      b.clock.wholeSecond.addSeconds? (m.settings.lifetime kind) = none) ∨
    (b.exec (m.issue c kind) = (.done (.error (.invalidClaims .incomplete)), b) ∧
      (c.tenant? = none ∨ c.app? = none ∨ c.subject? = none)) := by
  unfold issue
  rw [exec_bind, exec_now]
  simp only
  cases he : b.clock.wholeSecond.addSeconds? (m.settings.lifetime kind) with
  | none => exact .inr (.inl ⟨rfl, rfl⟩)
  | some e =>
    rw [exec_bind, exec_representable_some]
    simp only
    cases ht : c.tenant? with
    | none => exact .inr (.inr ⟨rfl, .inl rfl⟩)
    | some tenant =>
      cases ha : c.app? with
      | none => exact .inr (.inr ⟨rfl, .inr (.inl rfl)⟩)
      | some app =>
        cases hs : c.subject? with
        | none => exact .inr (.inr ⟨rfl, .inr (.inr rfl)⟩)
        | some subject =>
          obtain ⟨value, id, hmint, hsigned, hstored⟩ :=
            exec_mint m c kind tenant app subject b.clock.wholeSecond e b
          refine .inl ⟨⟨value, id, kind, tenant, app, b.clock.wholeSecond, e,
            (SortedMap.empty.insert "format" m.settings.format.name).insert "subject_id"
              subject.text⟩, _, ?_, ⟨rfl, ht, ha, ⟨subject, hs, by simp⟩,
            fun key hformat hsubject => by simp [hformat, hsubject], rfl, he, hsigned, hstored, rfl⟩⟩
          simp only
          rw [exec_bind, hmint]
          simp [Token.record, hs]

@[simp] theorem keep_clock (m : TokenManager) (b : Backend) (r : TokenRecord) :
    (m.keep b r).clock = b.clock := by
  unfold keep; split <;> rfl

@[simp] theorem keep_drawn (m : TokenManager) (b : Backend) (r : TokenRecord) :
    (m.keep b r).drawn = b.drawn + 1 := by
  unfold keep; split <;> rfl

@[simp] theorem keep_revocations (m : TokenManager) (b : Backend) (r : TokenRecord) :
    (m.keep b r).revocations = b.revocations := by
  unfold keep; split <;> rfl

/-! ### Rotation -/

/-- The store after the record of a rotated token was marked. -/
def marked (m : TokenManager) (b : Backend) (v : Verified) : TokenStore :=
  match m.backing, v.claims.subject? with
  | .stored, some s => (b.store.revoke s v.details.id b.clock).2
  | _, _ => b.store

/-- The backend after a rotated token was retired. -/
def retired (m : TokenManager) (b : Backend) (v : Verified) : Backend :=
  { b with
    revocations := (b.revocations.add v.details.id v.details.expiresAt).2
    store := m.marked b v }

theorem run_retire (d : TokenDetails) (retries : Nat) (b : Backend) :
    b.run (retire d retries) =
      (.done (.ok (b.revocations.add d.id d.expiresAt).1),
        { b with revocations := (b.revocations.add d.id d.expiresAt).2 }) := by
  cases retries <;> rfl

theorem run_markRevoked (m : TokenManager) (v : Verified) (b : Backend) :
    b.run (m.markRevoked v.claims v.details.id) =
      (.done (), { b with store := m.marked b v }) := by
  unfold markRevoked marked
  cases m.backing with
  | signed k => rfl
  | stored => cases v.claims.subject? <;> rfl

theorem verdict_ok {value : String} {v : Verified} (h : m.verdict b value = .ok v) :
    m.found b value = .ok (v, false) ∧ b.clock < v.details.expiresAt ∧
      b.revocations.contains v.details.id = false ∧ v.claims.hasScope = true := by
  unfold verdict at h
  split at h
  · cases h
  next v' marked hfound =>
    split at h
    · cases h
    next hlive =>
      split at h
      · cases h
      next hclean =>
        split at h
        next hscope =>
          obtain rfl := Except.ok.inj h
          simp only [Bool.or_eq_true, not_or, Bool.not_eq_true] at hclean
          exact ⟨hclean.1 ▸ hfound, Instant.not_le.1 hlive, hclean.2, hscope⟩
        · cases h

/-- How the rotation of a value ends on `b`, and the backend after it. -/
inductive Rotates (m : TokenManager) (value : String) (b : Backend) :
    Outcome (Except TokenError TokenPair) → Backend → Prop
  | rejected {f : VerificationFailure} (h : m.verdict b value = .error f) :
    Rotates m value b (.done (.error (.rejected f))) b
  | wrongKind {v : Verified} (h : m.verdict b value = .ok v) (hkind : v.details.kind ≠ .refresh) :
    Rotates m value b (.done (.error (.rejected .wrongKind))) b
  | incomplete {v : Verified} (h : m.verdict b value = .ok v)
    (hnone : v.claims.tenant? = none ∨ v.claims.app? = none ∨ v.claims.subject? = none) :
    Rotates m value b (.done (.error (.invalidClaims .incomplete))) b
  | aborted {v : Verified} (h : m.verdict b value = .ok v) (hkind : v.details.kind = .refresh)
    (hnone : b.clock.wholeSecond.addSeconds? (m.settings.lifetime .access) = none) :
    Rotates m value b .aborted b
  | halfway {v : Verified} {t : Token} {b' : Backend} (h : m.verdict b value = .ok v)
    (hkind : v.details.kind = .refresh) (haccess : m.Issues v.claims .access b t b')
    (hnone : b'.clock.wholeSecond.addSeconds? (m.settings.lifetime .refresh) = none) :
    Rotates m value b .aborted b'
  | rotated {v : Verified} {pair : TokenPair} {b' b'' : Backend} (h : m.verdict b value = .ok v)
    (hkind : v.details.kind = .refresh) (haccess : m.Issues v.claims .access b pair.access b')
    (hrefresh : m.Issues v.claims .refresh b' pair.refresh b'') :
    Rotates m value b (.done (.ok pair)) (m.retired b'' v)

theorem Rotates.clock_eq {value : String} {o : Outcome (Except TokenError TokenPair)}
    (h : m.Rotates value b o b') : b'.clock = b.clock := by
  cases h with
  | halfway _ _ haccess => rw [haccess.after, keep_clock]
  | rotated _ _ haccess hrefresh =>
    rw [retired, hrefresh.after, keep_clock, haccess.after, keep_clock]
  | _ => rfl

theorem Rotates.revocations_eq {value : String} {pair : TokenPair}
    (h : m.Rotates value b (.done (.ok pair)) b') :
    ∃ v, m.verdict b value = .ok v ∧
      b'.revocations = (b.revocations.add v.details.id v.details.expiresAt).2 := by
  cases h with
  | @rotated v _ _ _ h _ haccess hrefresh =>
    refine ⟨v, h, ?_⟩
    rw [retired, hrefresh.after, haccess.after, keep_revocations, keep_revocations]

theorem Rotates.drawn_le {value : String} {o : Outcome (Except TokenError TokenPair)}
    (h : m.Rotates value b o b') : b'.drawn ≤ b.drawn + 2 := by
  cases h with
  | halfway _ _ haccess =>
    rw [haccess.after, keep_drawn]
    omega
  | @rotated v _ _ b'' _ _ haccess hrefresh =>
    have hdrawn : (m.retired b'' v).drawn = b.drawn + 2 := by
      rw [retired, hrefresh.after, keep_drawn, haccess.after, keep_drawn]
    exact Nat.le_of_eq hdrawn
  | _ => exact Nat.le_add_right ..

/-- What is left of a rotation once the value was found valid. -/
def exchangeVerified (m : TokenManager) (v : Verified) : Operation TokenPair :=
  if v.details.kind = .refresh then do
    let access ← m.issue v.claims .access
    let refresh ← tryCatch (m.issue v.claims .refresh) fun e => do
      m.discard v.claims [access]
      throw e
    match ← retire v.details (m.settings.revokeAttempts - 1) with
    | .ok true =>
      m.markRevoked v.claims v.details.id
      return ⟨access, refresh⟩
    | .ok false =>
      m.discard v.claims [access, refresh]
      throw (.rejected .revoked)
    | .error _ => return ⟨access, refresh⟩
  else throw (.rejected .wrongKind)

theorem refresh_eq (m : TokenManager) (value : String) :
    m.refresh value = (do
      match ← m.verify value with
      | .error f => throw (.rejected f)
      | .ok v => m.exchangeVerified v) := rfl

theorem exec_refresh_rejected {value : String} {f : VerificationFailure}
    (h : m.verdict b value = .error f) :
    b.exec (m.refresh value) = (.done (.error (.rejected f)), b) := by
  rw [refresh, exec_bind, exec_verify, h]
  rfl

/-- A token that is not on the revocation list is exchanged, unless a time is not representable or
the claims are incomplete. -/
theorem exec_exchange {v : Verified} (hkind : v.details.kind = .refresh)
    (hnew : b.revocations.contains v.details.id = false) :
    (∃ pair b' b'', b.exec (m.exchangeVerified v) = (.done (.ok pair), m.retired b'' v) ∧
      m.Issues v.claims .access b pair.access b' ∧ m.Issues v.claims .refresh b' pair.refresh b'') ∨
    (∃ t b', b.exec (m.exchangeVerified v) = (.aborted, b') ∧ m.Issues v.claims .access b t b' ∧
      b'.clock.wholeSecond.addSeconds? (m.settings.lifetime .refresh) = none) ∨
    (b.exec (m.exchangeVerified v) = (.aborted, b) ∧
      b.clock.wholeSecond.addSeconds? (m.settings.lifetime .access) = none) ∨
    (b.exec (m.exchangeVerified v) = (.done (.error (.invalidClaims .incomplete)), b) ∧
      (v.claims.tenant? = none ∨ v.claims.app? = none ∨ v.claims.subject? = none)) := by
  unfold exchangeVerified
  rw [if_pos hkind, exec_bind]
  rcases exec_issue m v.claims .access b with
    ⟨access, b', he, haccess⟩ | ⟨he, hnone⟩ | ⟨he, hnone⟩ <;> rw [he]
  · simp only
    rw [exec_bind, exec_tryCatch]
    rcases exec_issue m v.claims .refresh b' with
      ⟨refresh, b'', he, hrefresh⟩ | ⟨he, hnone⟩ | ⟨-, hnone⟩
    · have hnew : b''.revocations.contains v.details.id = false := by
        rw [hrefresh.after, haccess.after, keep_revocations, keep_revocations, hnew]
      rw [he]
      simp only
      rw [exec_bind, exec_lift, run_retire]
      simp only [RevocationList.add_fst, hnew, Bool.not_false]
      rw [exec_bind, exec_lift, run_markRevoked]
      exact .inl ⟨⟨access, refresh⟩, b', b'', rfl, haccess, hrefresh⟩
    · rw [he]
      exact .inr (.inl ⟨access, b', rfl, haccess, hnone⟩)
    · obtain ⟨s, hs, -⟩ := haccess.subject
      simp [haccess.tenant, haccess.app, hs] at hnone
  · exact .inr (.inr (.inl ⟨rfl, hnone⟩))
  · exact .inr (.inr (.inr ⟨rfl, hnone⟩))

theorem exec_refresh (m : TokenManager) (value : String) (b : Backend) :
    m.Rotates value b (b.exec (m.refresh value)).1 (b.exec (m.refresh value)).2 := by
  rw [refresh_eq, exec_bind, exec_verify]
  cases h : m.verdict b value with
  | error f => exact .rejected h
  | ok v =>
    simp only
    by_cases hkind : v.details.kind = .refresh
    · rcases exec_exchange hkind (verdict_ok h).2.2.1 with ⟨pair, b', b'', he, haccess, hrefresh⟩ |
        ⟨t, b', he, haccess, hnone⟩ | ⟨he, hnone⟩ | ⟨he, hnone⟩ <;> rw [he]
      · exact .rotated h hkind haccess hrefresh
      · exact .halfway h hkind haccess hnone
      · exact .aborted h hkind hnone
      · exact .incomplete h hnone
    · rw [exchangeVerified, if_neg hkind]
      exact .wrongKind h hkind

/-! ### Revocation -/

/-- How the revocation of a value ends on `b`, and the backend after it. -/
inductive Revokes (m : TokenManager) (value : String) (b : Backend) :
    Outcome (Except TokenError Unit) → Backend → Prop
  | rejected {f : VerificationFailure} (h : m.found b value = .error f) :
    Revokes m value b (.done (.error (.rejected f))) b
  | unknown (hbacking : m.backing = .stored) (h : m.found b value = .error .notFound) :
    Revokes m value b (.done (.ok ())) b
  | expired {v : Verified} {marked : Bool} (h : m.found b value = .ok (v, marked))
    (hexpired : v.details.expiresAt ≤ b.clock) : Revokes m value b (.done (.ok ())) b
  | signed {k : SignedCodec} {v : Verified} (hbacking : m.backing = .signed k)
    (h : k.decode value = .ok v) (hlive : b.clock < v.details.expiresAt) :
    Revokes m value b (.done (.ok ()))
      { b with revocations := (b.revocations.add v.details.id v.details.expiresAt).2 }
  | stored {r : TokenRecord} (hbacking : m.backing = .stored)
    (h : b.store.find? (OpaqueValue.id m.primitives value) = some r)
    (hlive : b.clock < r.expiresAt) :
    Revokes m value b (.done (.ok ()))
      { b with
        revocations := (b.revocations.add (OpaqueValue.id m.primitives value) r.expiresAt).2
        store := (b.store.revoke r.subject (OpaqueValue.id m.primitives value) b.clock).2 }

theorem owned_revoke {st : TokenStore} {id : TokenId} {r : TokenRecord} (h : st.find? id = some r)
    (t : Instant) : ∃ new, owned (st.revoke r.subject id t).1 = .ok new := by
  unfold TokenStore.revoke
  rw [h]
  cases hr : r.isRevoked <;> simp [hr, owned]

theorem exec_revoke (m : TokenManager) (value : String) (b : Backend) :
    m.Revokes value b (b.exec (m.revoke value)).1 (b.exec (m.revoke value)).2 := by
  unfold revoke
  rw [exec_bind, exec_now]
  simp only
  cases hbacking : m.backing with
  | signed k =>
    simp only
    cases h : k.decode value with
    | error f => exact .rejected (by simp [found, hbacking, h, Except.map])
    | ok v =>
      simp only
      by_cases hexpired : v.details.expiresAt ≤ b.clock
      · rw [if_pos hexpired]
        exact .expired (found_of_decode hbacking h) hexpired
      · rw [if_neg hexpired, exec_bind, addRevocation, exec_addRevocation]
        exact .signed hbacking h (Instant.not_le.1 hexpired)
  | stored =>
    simp only
    by_cases hform : OpaqueValue.isWellFormed value
    · rw [if_pos hform, exec_bind, exec_findRecord]
      cases h : b.store.find? (OpaqueValue.id m.primitives value) with
      | none => exact .unknown hbacking (by simp [found, hbacking, hform, h])
      | some r =>
        simp only
        by_cases hexpired : r.isExpired b.clock
        · rw [if_pos hexpired]
          exact .expired (found_of_find? hbacking hform h) (of_decide_eq_true hexpired)
        · rw [if_neg hexpired, exec_bind, addRevocation, exec_addRevocation]
          simp only
          obtain ⟨new, hnew⟩ := owned_revoke h b.clock
          rw [exec_bind, exec_revokeRecord, hnew]
          exact .stored hbacking h (Instant.not_le.1 fun hle => hexpired (decide_eq_true hle))
    · rw [if_neg hform]
      exact .rejected (by simp [found, hbacking, hform])

theorem Revokes.drawn_eq {value : String} {o : Outcome (Except TokenError Unit)}
    (h : m.Revokes value b o b') : b'.drawn = b.drawn := by
  cases h <;> rfl

theorem Revokes.clock_eq {value : String} {o : Outcome (Except TokenError Unit)}
    (h : m.Revokes value b o b') : b'.clock = b.clock := by
  cases h <;> rfl

theorem exec_revoke_of_found {value : String} {v : Verified} {marked : Bool}
    (h : m.found b value = .ok (v, marked)) : (b.exec (m.revoke value)).1 = .done (.ok ()) := by
  have hrevokes := exec_revoke m value b
  generalize b.exec (m.revoke value) = result at hrevokes ⊢
  obtain ⟨o, b'⟩ := result
  cases hrevokes with
  | rejected h' =>
    rw [h] at h'
    cases h'
  | _ => rfl

/-- The backend after one of several records was revoked. -/
def struck (b : Backend) (subject : SubjectId) (now : Instant) (r : TokenRecord) : Backend :=
  { b with
    revocations := (b.revocations.add r.id r.expiresAt).2
    store := (b.store.revoke subject r.id now).2 }

/-- Records are revoked one after the other, until one is refused. -/
theorem exec_revokeEach_cons (subject : SubjectId) (now : Instant) (r : TokenRecord)
    (rs : List TokenRecord) (b : Backend) :
    b.exec (revokeEach subject now (r :: rs)) =
      match owned (b.store.revoke subject r.id now).1 with
      | .error f => (.done (.error (.ofStore f)), struck b subject now r)
      | .ok _ =>
        let rest := (struck b subject now r).exec (revokeEach subject now rs)
        (rest.1.map fun n => n.map fun n => if (b.revocations.add r.id r.expiresAt).1 then n + 1 else n,
          rest.2) := by
  rw [revokeEach, exec_bind, addRevocation, exec_addRevocation]
  simp only
  rw [exec_bind, exec_revokeRecord]
  cases owned (b.store.revoke subject r.id now).1 with
  | error f => rfl
  | ok new =>
    have hnew : (Except.ok new : Except CallFault Bool).mapError TokenError.ofStore = .ok new := rfl
    rw [hnew]
    simp only
    rw [exec_bind]
    simp only [struck]
    generalize Backend.exec _ (revokeEach subject now rs) = rest
    rcases rest with ⟨(_ | n) | _ | _, b'⟩ <;> rfl

theorem run_revokeAll_stored (hstored : m.backing = .stored) (t : TenantId) (s : SubjectId) :
    (m.revokeAll t s).run = .ask .now false fun now => .ask (.listRecords t s) true fun
      | .error f => .done (.error (.ofStore f))
      | .ok l => (revokeEach s now (l.filter (·.isLive now))).run := by
  unfold revokeAll
  rw [hstored]
  refine congrArg (Procedure.ask .now false) (funext fun now => ?_)
  refine congrArg (Procedure.ask _ true) (funext fun listed => ?_)
  cases listed <;> rfl

theorem exec_revokeAll (hstored : m.backing = .stored) (t : TenantId) (s : SubjectId) (b : Backend) :
    b.exec (m.revokeAll t s) = b.exec (revokeEach s b.clock (b.liveRecords t s)) := by
  rw [exec, run_revokeAll_stored hstored]
  rfl

/-! ### Sweeps -/

theorem run_sweep (hasStore : Bool) (b : Backend) :
    ∃ report, b.run (sweep hasStore) = (.done report,
      { b with
        revocations := b.revocations.cleanup b.clock
        store := if hasStore then b.store.cleanup b.clock else b.store }) := by
  cases hasStore <;> exact ⟨_, rfl⟩

end TokenManager

end AccessControl
