import AccessControl.Proofs.Token.Request
import AccessControl.Proofs.Token.Stock

/-!
# Rotations beside sweeps and logouts

What rotations, sweeps, and the revocation of all tokens of a subject ask of a backend that never
fails, each on its own (`TokenRequest.course`), and what has been done once they return
(`TokenRequest.Concludes`). Nothing is assumed of the order in which other calls take their steps: a
presented token may be gone, expired or revoked at any moment.
-/

namespace AccessControl

/-- The identifier is reported to the revocation list, whether or not it was there before. -/
def Exchange.Reports : Exchange → TokenId → Prop
  | ⟨.addRevocation id' _, .ok _⟩, id => id' = id
  | _, _ => False

theorem Exchange.Wins.reports {x : Exchange} {id : TokenId} (h : x.Wins id) : x.Reports id := by
  obtain ⟨q, a⟩ := x
  cases q with
  | addRevocation id' t =>
    rcases a with f | _ | _
    · exact h.elim
    · exact h.elim
    · exact h
  | _ => exact h.elim

/-! ### The rules -/

/-- The rules for a rotation, where the value stands for a token as `V` says if for any. -/
def rotationCourse (m : TokenManager) (value : String) (s : SubjectId) (V : Verified → Prop) :
    Protocol where
  may past
    | .now | .freshId | .findRevocation _ | .revokeRecord _ _ _ => True
    | .freshValue => m.backing = .stored
    | .findRecord id => m.backing = .stored ∧ id = OpaqueValue.id m.primitives value
    | .insertRecord r => m.backing = .stored ∧ (∃ v, V v ∧ r.claims = v.claims) ∧ r.subject = s ∧
      ∃ x, past.getLast? = some ⟨.freshValue, x⟩ ∧ r.id = OpaqueValue.id m.primitives x
    | .deleteRecord s' id => s' = s ∧ Trace (·.Keeps id) past
    | .addRevocation id t =>
      ∃ v, V v ∧ id = v.details.id ∧ t = v.details.expiresAt ∧ v.SeenLive past
    | .listRecords _ _ | .cleanupRecords _ | .cleanupRevocations _ => False
  expect
    | .findRecord _, x => ∃ found, x = .ok found ∧ ∀ r, found = some r → V ⟨r.claims, r.details⟩
    | .insertRecord _, x => x = .ok ()
    | .addRevocation _ _, x => ∃ new, x = .ok new
    | .findRevocation _, x => ∃ known, x = .ok known
    | _, _ => True
  mayAbort past := ∃ t kind, Trace (·.Shows t) past ∧
    t.wholeSecond.addSeconds? (m.settings.lifetime kind) = none

/-- The rules for a sweep: it drops what has expired by the time that the clock showed. -/
def sweepCourse : Protocol where
  may past
    | .now => True
    | .cleanupRevocations t | .cleanupRecords t => Trace (·.Shows t) past
    | _ => False
  expect _ _ := True
  mayAbort _ := False

/-- The rules for the revocation of all tokens of a subject. -/
def logoutCourse (tenant : TenantId) (subject : SubjectId) : Protocol where
  may _
    | .now | .addRevocation _ _ | .revokeRecord _ _ _ => True
    | .listRecords tenant' subject' => tenant' = tenant ∧ subject' = subject
    | _ => False
  expect _ _ := True
  mayAbort _ := False

namespace TokenManager

variable {m : TokenManager} {value : String} {v : Verified} {s : SubjectId} {V : Verified → Prop}
  {past : List Exchange} {ids : List TokenId}

open Operation Procedure

/-! ### Rotations -/

theorem letsExchange_course (hv : V v) : (rotationCourse m value s V).LetsExchange m v s where
  now _ := trivial
  freshId _ := trivial
  freshValue hs _ := hs
  insertRecord hs _ x _ hlast hid hsubject hclaims := ⟨hs, ⟨v, hv, hclaims⟩, hsubject, x, hlast, hid⟩
  inserted _ _ h := h
  deleteRecord _ _ _ hkept := ⟨rfl, hkept⟩
  addRevocation _ hlive := ⟨v, hv, rfl, rfl, hlive⟩
  reported _ _ _ h := h
  revokeRecord _ _ _ := trivial
  mayAbort _ t kind hshows he := ⟨t, kind, hshows, he⟩

theorem looksUp (hsigned : ∀ k v, m.backing = .signed k → k.decode value = .ok v → V v) :
    Succeeds (rotationCourse m value s V)
      (fun past found => Kept past [] ∧ ∀ v marked, found = .ok (v, marked) → V v) []
      (m.lookUp value) := by
  unfold lookUp
  cases hbacking : m.backing with
  | signed k =>
    refine succeeds_pure ⟨kept_nil, fun v marked h => ?_⟩
    obtain ⟨v', hdecode, he⟩ := Except.map_eq_ok.1 h
    obtain ⟨rfl, -⟩ := Prod.mk.inj he
    exact hsigned k v' hbacking hdecode
  | stored =>
    simp only
    split
    · have hfind : Succeeds (rotationCourse m value s V)
          (fun past found => Kept past [] ∧ ∀ r, found = some r → V ⟨r.claims, r.details⟩) []
          (checked .ofStore (boundCall (.findRecord (OpaqueValue.id m.primitives value)))) := by
        refine succeeds_checked (follows_boundCall ⟨hbacking, rfl⟩ fun x hx => ?_)
        obtain ⟨found, rfl, hfound⟩ := hx
        exact ⟨found, rfl, kept_nil.append (x := ⟨.findRecord _, _⟩) fun _ h => h, hfound⟩
      refine hfind.bind fun past found h => ?_
      obtain ⟨hkept, hfound⟩ := h
      cases found with
      | none => exact succeeds_pure ⟨hkept, fun v marked h => by cases h⟩
      | some r =>
        refine succeeds_pure ⟨hkept, fun v marked h => ?_⟩
        obtain ⟨rfl, -⟩ := Prod.mk.inj (Except.ok.inj h)
        exact hfound r rfl
    · exact succeeds_pure ⟨kept_nil, fun v marked h => by cases h⟩

/-- No record has been kept yet, and a token that was found valid was not expired. -/
def Judged (V : Verified → Prop) (past : List Exchange)
    (verdict : Except VerificationFailure Verified) : Prop :=
  Kept past [] ∧ ∀ v, verdict = .ok v → V v ∧ v.claims.hasScope = true ∧ v.SeenLive past

theorem verifies (hsigned : ∀ k v, m.backing = .signed k → k.decode value = .ok v → V v) :
    Succeeds (rotationCourse m value s V) (Judged V) [] (m.verify value) := by
  unfold verify
  refine (looksUp hsigned).bind fun past found h => ?_
  obtain ⟨hkept, hfound⟩ := h
  have hfails : ∀ past, Kept past [] → ∀ f,
      Succeeds (rotationCourse m value s V) (Judged V) past (pure (.error f)) :=
    fun past hkept f => succeeds_pure ⟨hkept, fun v h => by cases h⟩
  cases found with
  | error f => exact hfails past hkept f
  | ok found =>
    obtain ⟨v, marked⟩ := found
    refine (succeeds_now trivial hkept).bind fun past t h => ?_
    obtain ⟨hkept, -, hshows⟩ := h
    split
    · exact hfails past hkept .expired
    next hlive =>
      refine (succeeds_isRevoked trivial (fun _ hx => hx) hkept marked).extends.bind
        fun past known h => ?_
      obtain ⟨hle, hkept⟩ := h
      split
      · exact hfails past hkept .revoked
      · split
        next hscope =>
          refine succeeds_pure ⟨hkept, fun v' h => ?_⟩
          obtain rfl := Except.ok.inj h
          exact ⟨hfound v marked rfl, hscope, t, hshows.mono hle, Instant.not_le.1 hlive⟩
        · exact hfails past hkept .missingScope

/-- What has been done when a rotation returns: it was the first to report the token, or it has
deleted every record that it kept. -/
inductive Concluded (m : TokenManager) (V : Verified → Prop) (past : List Exchange) :
    Except TokenError TokenPair → Prop
  | won {v : Verified} {pair : TokenPair} (hv : V v) (h : m.Exchanged v past (.ok pair)) :
    Concluded m V past (.ok pair)
  | lost {e : TokenError} (h : ∀ id, Trace (·.Keeps id) past → Trace (·.Drops id) past) :
    Concluded m V past (.error e)

theorem concludes_refresh (hsubject : ∀ v, V v → v.claims.subject? = some s)
    (hsigned : ∀ k v, m.backing = .signed k → k.decode value = .ok v → V v) :
    Operation.Follows (rotationCourse m value s V) (m.Concluded V) [] (m.refresh value) := by
  rw [refresh_eq]
  refine (verifies hsigned).bind fun past verdict h => ?_
  obtain ⟨hkept, hok⟩ := h
  cases verdict with
  | error f =>
    refine follows_throw (.lost fun id h => ?_)
    exact absurd ((hkept id).1 h) List.not_mem_nil
  | ok v =>
    obtain ⟨hv, hscope, hlive⟩ := hok v rfl
    refine Procedure.Follows.mono (follows_exchange (letsExchange_course hv) hscope (hsubject v hv)
      hlive hkept) fun past r h => ?_
    cases r with
    | ok pair => exact .won hv h
    | error e => exact .lost h.dropped

/-! ### Logouts -/

/-- The records of the subject were listed, and those that were live were reported. -/
def LoggedOut (tenant : TenantId) (subject : SubjectId) (past : List Exchange) : Prop :=
  ∃ now l, Trace (·.Shows now) past ∧ ⟨.listRecords tenant subject, .ok l⟩ ∈ past ∧
    ∀ r ∈ l, r.isLive now → Trace (·.Reports r.id) past

theorem reports_revokeEach {tenant : TenantId} {subject : SubjectId} (now : Instant)
    (rs : List TokenRecord) :
    Operation.Follows (logoutCourse tenant subject)
      (fun past x => ∀ n, x = .ok n → ∀ r ∈ rs, Trace (·.Reports r.id) past) past
      (revokeEach subject now rs) := by
  induction rs generalizing past with
  | nil => exact follows_pure fun n _ r hr => by cases hr
  | cons r rs ih =>
    have hadd : Operation.Follows (logoutCourse tenant subject)
        (fun past x => ∀ new, x = .ok new → Trace (·.Reports r.id) past) past
        (addRevocation r.id r.expiresAt) := by
      refine follows_checked (follows_boundCall trivial fun x _ new h => ?_)
      cases x with
      | ok new' => exact trace_append.2 (.inr rfl)
      | error f => cases h
    refine hadd.bind (fun past new h => ?_) fun _ _ _ _ h => by cases h
    have hreported := h new rfl
    have hmark : Operation.Follows (logoutCourse tenant subject)
        (fun past _ => Trace (·.Reports r.id) past) past
        (checked .ofStore (boundCall (.revokeRecord subject r.id now))) :=
      follows_checked (follows_boundCall trivial fun _ _ => trace_append.2 (.inl hreported))
    refine hmark.bind (fun past _ hreported => ?_) fun _ _ _ _ h => by cases h
    refine Operation.Follows.bind (Procedure.Follows.extends (@ih past))
      (fun past' n h => ?_) fun _ _ _ _ h => by cases h
    obtain ⟨hle, hrest⟩ := h
    refine follows_pure fun _ _ r' hr' => ?_
    rcases List.mem_cons.1 hr' with rfl | hr'
    · exact hreported.mono hle
    · exact hrest n rfl r' hr'

theorem concludes_revokeAll (m : TokenManager) (tenant : TenantId) (subject : SubjectId) :
    Operation.Follows (logoutCourse tenant subject)
      (fun past x => ∀ n, x = .ok n → LoggedOut tenant subject past) []
      (m.revokeAll tenant subject) := by
  unfold revokeAll
  cases m.backing with
  | signed k => exact follows_throw fun n h => by cases h
  | stored =>
    simp only
    have hnow : Succeeds (logoutCourse tenant subject) (fun past t => Trace (·.Shows t) past) []
        (liftM (call .now)) :=
      succeeds_call trivial fun t _ => trace_append.2 (.inr rfl)
    refine hnow.bind fun past now hshows => ?_
    have hlist : Operation.Follows (logoutCourse tenant subject)
        (fun past x => ∀ l, x = .ok l →
          Trace (·.Shows now) past ∧ ⟨.listRecords tenant subject, .ok l⟩ ∈ past) past
        (checked .ofStore (boundCall (.listRecords tenant subject))) := by
      refine follows_checked (follows_boundCall ⟨rfl, rfl⟩ fun x _ l h => ?_)
      cases x with
      | ok l' =>
        obtain rfl := Except.ok.inj h
        exact ⟨trace_append.2 (.inl hshows), by simp⟩
      | error f => cases h
    refine hlist.bind (fun past l h => ?_) fun _ _ _ _ h => by cases h
    obtain ⟨hshows, hlisted⟩ := h l rfl
    refine Procedure.Follows.mono (Procedure.Follows.extends
      (reports_revokeEach now (l.filter (·.isLive now)))) fun past' x h n hn => ?_
    obtain ⟨hle, hreported⟩ := h
    exact ⟨now, l, hshows.mono hle, hle.subset hlisted, fun r hr hlive =>
      hreported n hn r (List.mem_filter.2 ⟨hr, hlive⟩)⟩

end TokenManager

/-! ### Requests -/

namespace TokenRequest

variable {m : TokenManager} {s : SubjectId} {V : String → Verified → Prop} {past : List Exchange}

/-- The request is a rotation, a logout or a sweep. -/
inductive HasCourse : TokenRequest → Prop
  | refresh (value : String) : HasCourse (.refresh value)
  | revokeAll (tenant : TenantId) (subject : SubjectId) : HasCourse (.revokeAll tenant subject)
  | sweep : HasCourse .sweep

/-- The rules for a request, where each value stands for a token as `V` says. -/
def course (m : TokenManager) (s : SubjectId) (V : String → Verified → Prop) :
    TokenRequest → Protocol
  | .refresh value => rotationCourse m value s (V value)
  | .revokeAll tenant subject => logoutCourse tenant subject
  | _ => sweepCourse

/-- What has been done when a request is replied to. -/
def Concludes (m : TokenManager) (V : String → Verified → Prop) (q : TokenRequest)
    (past : List Exchange) (reply : TokenReply) : Prop :=
  match q with
  | .refresh value => ∃ r, reply = .pair r ∧ m.Concluded (V value) past r
  | .revokeAll tenant subject =>
    ∃ r, reply = .count r ∧ ∀ n, r = .ok n → TokenManager.LoggedOut tenant subject past
  | .sweep => ∃ r, reply = .swept r
  | _ => True

/-- Nothing that one of these requests asks is untidy. -/
theorem tidy_of_course {q : TokenRequest} {a : Ask} (hmay : (q.course m s V).may past a) :
    a.Tidy m s past := by
  cases q with
  | refresh value =>
    cases a with
    | freshValue => exact hmay
    | insertRecord r => exact hmay.2.2
    | deleteRecord s' id => exact hmay
    | _ => trivial
  | revokeAll tenant subject =>
    cases a with
    | freshValue | insertRecord _ | deleteRecord _ _ => exact hmay.elim
    | _ => trivial
  | _ =>
    cases a with
    | freshValue | insertRecord _ | deleteRecord _ _ => exact hmay.elim
    | _ => trivial

/-- A backend that never fails answers as expected, if it keeps no other records for a presented value
than `V` says. -/
theorem expect_answer {q : TokenRequest} {a : Ask} {b : Backend}
    (hfound : ∀ value, q = .refresh value → m.backing = .stored →
      ∀ r, b.store.find? (OpaqueValue.id m.primitives value) = some r →
        V value ⟨r.claims, r.details⟩)
    (hmay : (q.course m s V).may past a) : (q.course m s V).expect a (b.answer a).1 := by
  cases q with
  | refresh value =>
    cases a with
    | findRecord id =>
      obtain ⟨hstored, rfl⟩ := hmay
      exact ⟨_, rfl, hfound value rfl hstored⟩
    | insertRecord r => rfl
    | addRevocation id t => exact ⟨_, rfl⟩
    | findRevocation id => exact ⟨_, rfl⟩
    | _ => trivial
  | _ => trivial

theorem follows_sweepCourse (hasStore : Bool) :
    (AccessControl.sweep hasStore).Follows sweepCourse (fun _ _ => True) [] := by
  refine ⟨trivial, fun now _ => ?_⟩
  have hshows : Trace (·.Shows now) ([] ++ [⟨.now, now⟩]) := trace_append.2 (.inr rfl)
  refine ⟨hshows, fun x _ => ?_⟩
  cases hasStore with
  | false => exact trivial
  | true => exact ⟨trace_append.2 (.inl hshows), fun _ _ => trivial⟩

theorem follows_course {q : TokenRequest} (hq : q.HasCourse)
    (hsubject : ∀ value v, V value v → v.claims.subject? = some s)
    (hsigned : ∀ k value v, q = .refresh value → m.backing = .signed k → k.decode value = .ok v →
      V value v) :
    (m.serve q).Follows (q.course m s V) (q.Concludes m V) [] := by
  cases hq with
  | refresh value =>
    have h := TokenManager.concludes_refresh (hsubject value) fun k v => hsigned k value v rfl
    exact Procedure.Follows.bind h fun _ r h => ⟨r, rfl, h⟩
  | revokeAll tenant subject =>
    have h := TokenManager.concludes_revokeAll m tenant subject
    exact Procedure.Follows.bind h fun _ r h => ⟨r, rfl, h⟩
  | sweep =>
    exact Procedure.Follows.bind (follows_sweepCourse m.hasStore) fun _ report _ => ⟨report, rfl⟩

end TokenRequest

end AccessControl
