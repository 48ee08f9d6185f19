import AccessControl.Proofs.Token.Exchanging

/-!
# What rotations and revocations of one token ask

The calls of a pool in which one refresh token is rotated and revoked by any number of callers, each
call on its own. `rotationProtocol` says what such a call may ask: it keeps records only for values
that it has just drawn, deletes only records that it has kept, and reports only the presented token
to the revocation list. A rotation then ends in one of two ways (`follows_refresh`): it was the first
to report the token, or it has deleted every record that it kept.
-/

namespace AccessControl

/-! ### The protocol -/

/-- The value stands for a refresh token that names its holder. -/
structure Presented (m : TokenManager) (b : Backend) (value : String) (v : Verified)
    (s : SubjectId) : Prop where
  found : ∃ marked, m.found b value = .ok (v, marked)
  live : b.clock < v.details.expiresAt
  kind : v.details.kind = .refresh
  scope : v.claims.hasScope = true
  subject : v.claims.subject? = some s
  /-- The token is recorded under the digest of its value. -/
  keyed : m.backing = .stored → v.details.id = OpaqueValue.id m.primitives value

/-- The rules for the rotations and revocations of one refresh token. -/
def rotationProtocol (m : TokenManager) (value : String) (v : Verified) (s : SubjectId) :
    Protocol where
  may past
    | .now | .freshId | .findRevocation _ | .revokeRecord _ _ _ => True
    | .freshValue => m.backing = .stored
    | .findRecord id => m.backing = .stored ∧ id = OpaqueValue.id m.primitives value
    | .insertRecord r => m.backing = .stored ∧ r.subject = s ∧
      ∃ x, past.getLast? = some ⟨.freshValue, x⟩ ∧ r.id = OpaqueValue.id m.primitives x
    | .deleteRecord s' id => m.backing = .stored ∧ s' = s ∧ Trace (·.Keeps id) past
    | .addRevocation id _ => id = v.details.id
    | .listRecords _ _ | .cleanupRecords _ | .cleanupRevocations _ => False
  expect
    | .now, t => t < v.details.expiresAt
    | .findRecord _, x => ∃ r, x = .ok (some r) ∧ r.claims = v.claims ∧ r.details = v.details
    | .insertRecord _, x => x = .ok ()
    | .addRevocation _ _, x => ∃ new, x = .ok new
    | .findRevocation _, x => ∃ known, x = .ok known
    | _, _ => True
  mayAbort past := ∃ t kind, Trace (·.Shows t) past ∧
    t.wholeSecond.addSeconds? (m.settings.lifetime kind) = none

namespace TokenManager

variable {m : TokenManager} {b : Backend} {value : String} {v : Verified} {s : SubjectId}
  {past : List Exchange} {ids : List TokenId}

open Operation Procedure

/-! ### Verification -/

theorem succeeds_findRecord (hstored : m.backing = .stored) (hkept : Kept past ids) :
    Succeeds (rotationProtocol m value v s)
      (fun past found => Kept past ids ∧
        ∃ r, found = some r ∧ r.claims = v.claims ∧ r.details = v.details) past
      (checked .ofStore (boundCall (.findRecord (OpaqueValue.id m.primitives value)))) := by
  refine succeeds_checked (follows_boundCall ⟨hstored, rfl⟩ fun x hx => ?_)
  obtain ⟨r, rfl, hr⟩ := hx
  exact ⟨some r, rfl, hkept.append (x := ⟨.findRecord _, _⟩) fun _ h => h, r, rfl, hr⟩

theorem succeeds_lookUp (hp : Presented m b value v s) :
    Succeeds (rotationProtocol m value v s)
      (fun past found => Kept past [] ∧ ∃ marked, found = .ok (v, marked)) [] (m.lookUp value) := by
  obtain ⟨marked, hfound⟩ := hp.found
  unfold lookUp
  unfold TokenManager.found at hfound
  cases hbacking : m.backing with
  | signed k =>
    simp only [hbacking] at hfound ⊢
    rw [hfound]
    exact succeeds_pure ⟨kept_nil, marked, rfl⟩
  | stored =>
    simp only [hbacking] at hfound ⊢
    split at hfound
    next hform =>
      rw [if_pos hform]
      refine (succeeds_findRecord hbacking kept_nil).bind fun past found h => ?_
      obtain ⟨hkept, r, rfl, hclaims, hdetails⟩ := h
      refine succeeds_pure ⟨hkept, r.isRevoked, ?_⟩
      rw [hclaims, hdetails]
    · cases hfound

/-- The presented token is found valid, or it was revoked before. -/
theorem succeeds_verify (hp : Presented m b value v s) :
    Succeeds (rotationProtocol m value v s)
      (fun past verdict => Kept past [] ∧
        (verdict = .ok v ∧ v.SeenLive past ∨ verdict = .error .revoked)) [] (m.verify value) := by
  unfold verify
  refine (succeeds_lookUp hp).bind fun past found h => ?_
  obtain ⟨hkept, marked, rfl⟩ := h
  refine (succeeds_now trivial hkept).bind fun past t h => ?_
  obtain ⟨hkept, hlive, hshows⟩ := h
  rw [if_neg (Instant.not_le.2 hlive)]
  refine (succeeds_isRevoked trivial (fun _ hx => hx) hkept marked).extends.bind fun past' known h => ?_
  obtain ⟨hle, hkept⟩ := h
  cases known with
  | true => exact succeeds_pure ⟨hkept, .inr rfl⟩
  | false =>
    rw [if_neg Bool.false_ne_true, if_pos hp.scope]
    exact succeeds_pure ⟨hkept, .inl ⟨rfl, t, hshows.mono hle, hlive⟩⟩

/-! ### Whole calls -/

theorem letsExchange_rotation (m : TokenManager) (value : String) (v : Verified) (s : SubjectId) :
    (rotationProtocol m value v s).LetsExchange m v s where
  now _ := trivial
  freshId _ := trivial
  freshValue hs _ := hs
  insertRecord hs _ x _ hlast hid hsubject _ := ⟨hs, hsubject, x, hlast, hid⟩
  inserted _ _ h := h
  deleteRecord hs _ _ hkept := ⟨hs, rfl, hkept⟩
  addRevocation _ _ := rfl
  reported _ _ _ h := h
  revokeRecord _ _ _ := trivial
  mayAbort _ t kind hshows he := ⟨t, kind, hshows, he⟩

/-- How a rotation of the presented token may end. -/
inductive Rotated (v : Verified) (past : List Exchange) : Except TokenError TokenPair → Prop
  | won (pair : TokenPair) (h : Trace (·.Wins v.details.id) past) : Rotated v past (.ok pair)
  | lost (h : ∀ id, Trace (·.Keeps id) past → Trace (·.Drops id) past) :
    Rotated v past (.error (.rejected .revoked))

theorem follows_refresh (hp : Presented m b value v s) :
    Operation.Follows (rotationProtocol m value v s) (Rotated v) [] (m.refresh value) := by
  rw [refresh_eq]
  refine (succeeds_verify hp).bind fun past verdict h => ?_
  obtain ⟨hkept, ⟨rfl, hlive⟩ | rfl⟩ := h
  · refine Procedure.Follows.mono (follows_exchange (letsExchange_rotation m value v s) hp.scope
      hp.subject hlive hkept) fun past r h => ?_
    cases h with
    | won pair _ hwins _ => exact .won pair hwins
    | lost h => exact .lost h
    | wrongKind hkind _ => exact absurd hp.kind hkind
  · refine follows_throw (.lost fun id h => ?_)
    exact absurd ((hkept id).1 h) List.not_mem_nil

theorem succeeds_addRevocation (t : Instant) :
    Succeeds (rotationProtocol m value v s) (fun _ _ => True) past
      (addRevocation v.details.id t) := by
  refine succeeds_checked (follows_boundCall rfl fun x hx => ?_)
  obtain ⟨new, rfl⟩ := hx
  exact ⟨new, rfl, trivial⟩

theorem follows_revokeRecord (s' : SubjectId) (id : TokenId) (t : Instant) :
    Operation.Follows (rotationProtocol m value v s) (fun _ _ => True) past
      (checked .ofStore (boundCall (.revokeRecord s' id t))) :=
  follows_checked (follows_boundCall trivial fun _ _ => trivial)

theorem follows_revoke (hp : Presented m b value v s) :
    Operation.Follows (rotationProtocol m value v s) (fun _ _ => True) [] (m.revoke value) := by
  unfold revoke
  refine (succeeds_now trivial kept_nil).bind fun past now h => ?_
  obtain ⟨hkept, -, -⟩ := h
  obtain ⟨marked, hfound⟩ := hp.found
  cases hbacking : m.backing with
  | signed k =>
    simp only
    cases hd : k.decode value with
    | error f => exact follows_throw trivial
    | ok v' =>
      rw [found_of_decode hbacking hd] at hfound
      obtain ⟨rfl, -⟩ := Prod.mk.inj (Except.ok.inj hfound)
      simp only
      split
      · exact follows_pure trivial
      · exact (succeeds_addRevocation _).bind fun _ _ _ => follows_pure trivial
  | stored =>
    simp only
    split
    · refine (succeeds_findRecord hbacking hkept).bind fun past found h => ?_
      obtain ⟨-, r, rfl, -, -⟩ := h
      simp only
      split
      · exact follows_pure trivial
      · rw [← hp.keyed hbacking]
        refine (succeeds_addRevocation _).bind fun _ _ _ => ?_
        exact (follows_revokeRecord _ _ _).bind (fun _ _ _ => follows_pure trivial)
          fun _ _ _ => trivial
    · exact follows_throw trivial

end TokenManager

end AccessControl
