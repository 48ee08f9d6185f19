import AccessControl.Proofs.Token.Protocol
import AccessControl.Proofs.Token.Serial

/-!
# Exchanging a token that was found valid

A rotation issues two tokens, reports the presented token to the revocation list, and deletes the
records that it has kept if the token was reported before. `Protocol.LetsExchange` says what a protocol
has to allow for that, and `TokenManager.follows_exchange` is the one rule for all such protocols: an
exchange was the first to report the token, or it has deleted every record that it kept.
-/

namespace AccessControl

/-! ### Traces of a call -/

namespace Exchange

def Keeps : Exchange → TokenId → Prop
  | ⟨.insertRecord r, _⟩, id => r.id = id
  | _, _ => False

def Drops : Exchange → TokenId → Prop
  | ⟨.deleteRecord _ id', _⟩, id => id' = id
  | _, _ => False

def Draws : Exchange → String → Prop
  | ⟨.freshValue, x⟩, value => x = value
  | _, _ => False

/-- The identifier is reported to the revocation list for the first time. -/
def Wins : Exchange → TokenId → Prop
  | ⟨.addRevocation id' _, .ok true⟩, id => id' = id
  | _, _ => False

def Shows : Exchange → Instant → Prop
  | ⟨.now, t⟩, t' => t = t'
  | _, _ => False

theorem eq_of_shows {x : Exchange} {t : Instant} (h : x.Shows t) : x = ⟨.now, t⟩ := by
  obtain ⟨q, a⟩ := x
  cases q with
  | now => exact congrArg _ h
  | _ => exact h.elim

theorem eq_of_wins {id id' : TokenId} {t : Instant} {x : (Ask.addRevocation id' t).Answer}
    (h : (⟨.addRevocation id' t, x⟩ : Exchange).Wins id) : id' = id := by
  rcases x with f | _ | _
  · exact h.elim
  · exact h.elim
  · exact h

end Exchange

/-- The identifiers whose records a call has kept. -/
def Kept (past : List Exchange) (ids : List TokenId) : Prop :=
  ∀ id, Trace (·.Keeps id) past ↔ id ∈ ids

theorem kept_nil : Kept [] [] := fun id => by simp

theorem Kept.append {past : List Exchange} {ids : List TokenId} (h : Kept past ids) {x : Exchange}
    (hx : ∀ id, ¬x.Keeps id) : Kept (past ++ [x]) ids := fun id => by
  simp only [trace_append, hx id, or_false]
  exact h id

/-- The clock was read when the token had not expired. -/
def Verified.SeenLive (v : Verified) (past : List Exchange) : Prop :=
  ∃ t, Trace (·.Shows t) past ∧ t < v.details.expiresAt

theorem Verified.SeenLive.mono {v : Verified} {past past' : List Exchange} (h : v.SeenLive past)
    (hle : past <+: past') : v.SeenLive past' :=
  let ⟨t, ht, hlive⟩ := h
  ⟨t, ht.mono hle, hlive⟩

/-! ### What an exchange needs -/

/-- The protocol allows the exchange of a token that belongs to the subject. -/
structure Protocol.LetsExchange (P : Protocol) (m : TokenManager) (v : Verified) (s : SubjectId) :
    Prop where
  now : ∀ past, P.may past .now
  freshId : ∀ past, P.may past .freshId
  freshValue : m.backing = .stored → ∀ past, P.may past .freshValue
  /-- A record for the subject may be kept for the value drawn last. -/
  insertRecord : m.backing = .stored → ∀ past x r, past.getLast? = some ⟨.freshValue, x⟩ →
    r.id = OpaqueValue.id m.primitives x → r.subject = s → r.claims = v.claims →
    P.may past (.insertRecord r)
  inserted : ∀ r x, P.expect (.insertRecord r) x → x = .ok ()
  deleteRecord : m.backing = .stored → ∀ past id, Trace (·.Keeps id) past →
    P.may past (.deleteRecord s id)
  addRevocation : ∀ past, v.SeenLive past →
    P.may past (.addRevocation v.details.id v.details.expiresAt)
  reported : ∀ id t x, P.expect (.addRevocation id t) x → ∃ new, x = .ok new
  revokeRecord : ∀ past id t, P.may past (.revokeRecord s id t)
  mayAbort : ∀ past t kind, Trace (·.Shows t) past →
    t.wholeSecond.addSeconds? (m.settings.lifetime kind) = none → P.mayAbort past

namespace TokenManager

variable {m : TokenManager} {P : Protocol} {v : Verified} {s : SubjectId} {past : List Exchange}
  {ids : List TokenId}

open Operation Procedure

/-! ### The clock and the revocation list -/

theorem succeeds_now (hmay : P.may past .now) (hkept : Kept past ids) :
    Succeeds P (fun past t => Kept past ids ∧ P.expect .now t ∧ Trace (·.Shows t) past) past
      (liftM (call .now)) :=
  succeeds_call hmay fun t ht =>
    ⟨hkept.append (x := ⟨.now, t⟩) fun _ h => h, ht, trace_append.2 (.inr rfl)⟩

theorem succeeds_isRevoked {id : TokenId} (hmay : P.may past (.findRevocation id))
    (hknown : ∀ x, P.expect (.findRevocation id) x → ∃ known, x = .ok known) (hkept : Kept past ids)
    (marked : Bool) : Succeeds P (fun past _ => Kept past ids) past (isRevoked id marked) := by
  unfold isRevoked
  split
  · exact succeeds_pure hkept
  · refine succeeds_checked (follows_boundCall hmay fun x hx => ?_)
    obtain ⟨known, rfl⟩ := hknown x hx
    exact ⟨known, rfl, hkept.append (x := ⟨.findRevocation _, _⟩) fun _ h => h⟩

/-! ### Issuing -/

/-- The identifiers of the records that issuing a token keeps. -/
def recordIds (m : TokenManager) (id : TokenId) : List TokenId :=
  match m.backing with
  | .signed _ => []
  | .stored => [id]

theorem succeeds_mint (hP : P.LetsExchange m v s) (hkept : Kept past ids) (kind : TokenKind)
    (tenant : TenantId) (app : AppId) (issuedAt expiresAt : Instant) :
    Succeeds P
      (fun past minted => Kept past (m.recordIds minted.2 ++ ids) ∧
        (m.backing = .stored → Trace (·.Draws minted.1) past)) past
      (m.mint v.claims kind tenant app s issuedAt expiresAt) := by
  unfold mint recordIds
  cases hbacking : m.backing with
  | signed k =>
    have hdraw : Succeeds P (fun past _ => Kept past ids) past (liftM (call .freshId)) :=
      succeeds_call (hP.freshId past) fun id _ => hkept.append (x := ⟨.freshId, id⟩) fun _ h => h
    refine hdraw.bind fun past id hkept => ?_
    exact succeeds_pure ⟨hkept, fun h => by cases h⟩
  | stored =>
    simp only
    have hdraw : Succeeds P
        (fun past x => Kept past ids ∧ past.getLast? = some ⟨.freshValue, x⟩) past
        (liftM (call .freshValue)) :=
      succeeds_call (hP.freshValue hbacking past) fun x _ =>
        ⟨hkept.append (x := ⟨.freshValue, x⟩) fun _ h => h, by simp⟩
    refine hdraw.bind fun past x h => ?_
    obtain ⟨hkept, hlast⟩ := h
    have hinsert : ∀ r : TokenRecord, r.subject = s → r.claims = v.claims →
        r.id = OpaqueValue.id m.primitives x →
        Succeeds P (fun past _ => Kept past (r.id :: ids) ∧ Trace (·.Draws x) past) past
          (checked .ofStore (boundCall (.insertRecord r))) := by
      intro r hsubject hclaims hid
      have hmay := hP.insertRecord hbacking past x r hlast hid hsubject hclaims
      refine succeeds_checked (follows_boundCall hmay fun y hy => ?_)
      refine ⟨(), hP.inserted r y hy, fun id => ?_, ?_⟩
      · rw [trace_append, hkept id, List.mem_cons, or_comm]
        exact or_congr_left eq_comm
      · exact trace_append.2 (.inl ⟨_, List.mem_of_getLast? hlast, rfl⟩)
    refine (hinsert _ rfl rfl rfl).bind fun past _ h => ?_
    exact succeeds_pure ⟨h.1, fun _ => h.2⟩

theorem succeeds_issue (hP : P.LetsExchange m v s) (hscope : v.claims.hasScope = true)
    (hsubject : v.claims.subject? = some s) (hkept : Kept past ids) (kind : TokenKind) :
    Succeeds P
      (fun past t => Kept past (m.recordIds t.id ++ ids) ∧
        (m.backing = .stored → Trace (·.Draws t.value) past)) past (m.issue v.claims kind) := by
  unfold issue
  refine (succeeds_now (hP.now past) hkept).bind fun past t h => ?_
  obtain ⟨hkept, -, hshows⟩ := h
  have hexpiry : Succeeds P (fun past _ => Kept past ids) past
      (representable (t.wholeSecond.addSeconds? (m.settings.lifetime kind))) :=
    succeeds_representable (fun he => hP.mayAbort past t kind hshows he) fun e _ => hkept
  refine hexpiry.bind fun past e hkept => ?_
  simp only [Claims.hasScope, Bool.and_eq_true, Option.isSome_iff_exists] at hscope
  obtain ⟨⟨tenant, htenant⟩, app, happ⟩ := hscope
  simp only [htenant, happ, hsubject]
  refine (succeeds_mint hP hkept kind tenant app t.wholeSecond e).bind fun past minted h => ?_
  exact succeeds_pure h

/-! ### Retiring the presented token -/

/-- The presented token is reported to the revocation list; who hears that it is new has won. -/
theorem follows_report (hP : P.LetsExchange m v s) (hlive : v.SeenLive past)
    (hkept : Kept past ids) :
    (call (.addRevocation v.details.id v.details.expiresAt)).Follows P
      (fun past r => ∃ new, r = .ok new ∧ Kept past ids ∧
        (new = true → Trace (·.Wins v.details.id) past)) past := by
  refine follows_call (hP.addRevocation past hlive) fun x hx => ?_
  obtain ⟨new, rfl⟩ := hP.reported _ _ x hx
  refine ⟨new, rfl, hkept.append fun _ h => h, fun hnew => ?_⟩
  subst hnew
  exact trace_append.2 (.inr rfl)

theorem follows_retire (hP : P.LetsExchange m v s) (hlive : v.SeenLive past)
    (hkept : Kept past ids) (retries : Nat) :
    (retire v.details retries).Follows P
      (fun past r => ∃ new, r = .ok new ∧ Kept past ids ∧
        (new = true → Trace (·.Wins v.details.id) past)) past := by
  cases retries with
  | zero => exact follows_report hP hlive hkept
  | succ n =>
    refine (follows_report hP hlive hkept).bind fun past r h => ?_
    obtain ⟨new, rfl, h⟩ := h
    exact ⟨new, rfl, h⟩

theorem follows_markRevoked (hP : P.LetsExchange m v s) (hsubject : v.claims.subject? = some s)
    (id : TokenId) : (m.markRevoked v.claims id).Follows P (fun _ _ => True) past := by
  unfold markRevoked
  split
  · next s' _ hs =>
    obtain rfl := Option.some.inj (hsubject.symm.trans hs)
    exact ⟨hP.now past, fun t _ => ⟨hP.revokeRecord _ id t, fun _ _ => trivial⟩⟩
  · exact trivial

/-- Discarding tokens deletes their records, and keeps no new ones. -/
theorem follows_discard (hP : P.LetsExchange m v s) (hsubject : v.claims.subject? = some s)
    {tokens : List Token} (hown : m.backing = .stored → ∀ t ∈ tokens, Trace (·.Keeps t.id) past) :
    (m.discard v.claims tokens).Follows P
      (fun past' _ => (∀ id, Trace (·.Keeps id) past' ↔ Trace (·.Keeps id) past) ∧
        (m.backing = .stored → ∀ t ∈ tokens, Trace (·.Drops t.id) past')) past := by
  unfold discard
  cases hbacking : m.backing with
  | signed k => exact ⟨fun _ => Iff.rfl, fun h => by cases h⟩
  | stored =>
    simp only [hsubject]
    replace hown := hown hbacking
    induction tokens generalizing past with
    | nil => exact ⟨fun _ => Iff.rfl, fun _ t ht => by cases ht⟩
    | cons t tokens ih =>
      refine ⟨hP.deleteRecord hbacking past _ (hown t (List.mem_cons_self ..)), fun x _ => ?_⟩
      have hown' : ∀ t' ∈ tokens, Trace (·.Keeps t'.id) (past ++ [⟨.deleteRecord s t.id, x⟩]) :=
        fun t' ht' => trace_append.2 (.inl (hown t' (List.mem_cons_of_mem _ ht')))
      refine (ih hown').extends.mono fun past' _ h => ?_
      obtain ⟨hle, hkept, hall⟩ := h
      refine ⟨fun id => ?_, fun hs t' ht' => ?_⟩
      · rw [hkept id, trace_append]
        exact or_iff_left fun h => h
      · rcases List.mem_cons.1 ht' with rfl | ht'
        · have hdropped : Trace (·.Drops t'.id) (past ++ [⟨.deleteRecord s t'.id, x⟩]) :=
            trace_append.2 (.inr rfl)
          exact hdropped.mono hle
        · exact hall hs t' ht'

/-! ### The rule -/

/-- How an exchange may end. -/
inductive Exchanged (m : TokenManager) (v : Verified) (past : List Exchange) :
    Except TokenError TokenPair → Prop
  | won (pair : TokenPair) (hlive : v.SeenLive past) (hwins : Trace (·.Wins v.details.id) past)
    (hdrawn : m.backing = .stored →
      Trace (·.Draws pair.access.value) past ∧ Trace (·.Draws pair.refresh.value) past) :
    Exchanged m v past (.ok pair)
  | lost (h : ∀ id, Trace (·.Keeps id) past → Trace (·.Drops id) past) :
    Exchanged m v past (.error (.rejected .revoked))
  | wrongKind (hkind : v.details.kind ≠ .refresh) (hkept : Kept past []) :
    Exchanged m v past (.error (.rejected .wrongKind))

/-- An exchange that hands out no tokens has deleted every record that it kept. -/
theorem Exchanged.dropped {e : TokenError} (h : m.Exchanged v past (.error e)) (id : TokenId)
    (hkept : Trace (·.Keeps id) past) : Trace (·.Drops id) past := by
  cases h with
  | lost h => exact h id hkept
  | wrongKind _ hnone => exact absurd ((hnone id).1 hkept) List.not_mem_nil

/-- Who hears that the token was reported before deletes the records of both new tokens. -/
theorem follows_withdraw (hP : P.LetsExchange m v s) (hsubject : v.claims.subject? = some s)
    {access refresh : Token}
    (hkept : Kept past (m.recordIds refresh.id ++ (m.recordIds access.id ++ []))) :
    Operation.Follows P (m.Exchanged v) past (do
      m.discard v.claims [access, refresh]
      throw (.rejected .revoked)) := by
  have hown : m.backing = .stored → ∀ t ∈ [access, refresh], Trace (·.Keeps t.id) past := by
    intro hs t ht
    refine (hkept t.id).2 ?_
    simp only [recordIds, hs]
    rcases List.mem_cons.1 ht with rfl | ht
    · simp
    · rw [List.mem_singleton.1 ht]
      simp
  refine (succeeds_lift (follows_discard hP hsubject hown)).bind fun past' _ h => ?_
  obtain ⟨hsame, hdropped⟩ := h
  refine follows_throw (.lost fun id h => ?_)
  have hid := (hkept id).1 ((hsame id).1 h)
  unfold recordIds at hid
  cases hbacking : m.backing with
  | signed k => simp [hbacking] at hid
  | stored =>
    simp only [hbacking, List.singleton_append, List.mem_cons, List.not_mem_nil, or_false] at hid
    rcases hid with rfl | rfl
    · exact hdropped hbacking refresh (by simp)
    · exact hdropped hbacking access (by simp)

theorem follows_exchange (hP : P.LetsExchange m v s) (hscope : v.claims.hasScope = true)
    (hsubject : v.claims.subject? = some s) (hlive : v.SeenLive past) (hkept : Kept past []) :
    Operation.Follows P (m.Exchanged v) past (m.exchangeVerified v) := by
  unfold exchangeVerified
  by_cases hkind : v.details.kind = .refresh
  · rw [if_pos hkind]
    refine (succeeds_issue hP hscope hsubject hkept .access).extends.bind fun past access h => ?_
    obtain ⟨hle, hkept, hdrawn⟩ := h
    replace hlive := hlive.mono hle
    have hrefresh : Succeeds P
        (fun past' t => past <+: past' ∧
          Kept past' (m.recordIds t.id ++ (m.recordIds access.id ++ [])) ∧
          (m.backing = .stored → Trace (·.Draws t.value) past')) past
        (tryCatch (m.issue v.claims .refresh) fun e => do
          m.discard v.claims [access]
          throw e) := by
      refine Operation.Follows.tryCatch (succeeds_issue hP hscope hsubject hkept .refresh).extends
        (fun past t h => h) fun past e h => ?_
      obtain ⟨t, ht, -⟩ := h
      cases ht
    refine hrefresh.bind fun past refresh h => ?_
    obtain ⟨hle, hkept, hdrawn'⟩ := h
    replace hlive := hlive.mono hle
    replace hdrawn : m.backing = .stored →
        Trace (·.Draws access.value) past ∧ Trace (·.Draws refresh.value) past :=
      fun hs => ⟨(hdrawn hs).mono hle, hdrawn' hs⟩
    refine (succeeds_lift (follows_retire hP hlive hkept _)).extends.bind fun past' r h => ?_
    obtain ⟨hle, new, rfl, hkept, hwon⟩ := h
    cases new with
    | true =>
      refine (succeeds_lift (follows_markRevoked hP hsubject _)).extends.bind fun past'' _ h => ?_
      have hle' := hle.trans h.1
      refine follows_pure (.won _ (hlive.mono hle') ((hwon rfl).mono h.1) fun hs => ?_)
      exact ⟨(hdrawn hs).1.mono hle', (hdrawn hs).2.mono hle'⟩
    | false => exact follows_withdraw hP hsubject hkept
  · rw [if_neg hkind]
    exact follows_throw (.wrongKind hkind hkept)

end TokenManager

end AccessControl
