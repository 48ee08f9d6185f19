import AccessControl.Proofs.Token.Frame
import AccessControl.Proofs.Token.Revocation
import AccessControl.Proofs.Token.Script

/-!
# Records and revocation list

That an opaque token is revoked is written down twice, as a mark in its record and as an entry on the
revocation list. Whatever is requested and swept, and however the clock is set, the list names exactly
the marked records, each with the expiry of the record, and every record says of its token what the
claims say (`list_matches_records`). All that requests do to the two is to take up records of new
tokens and to strike out records that are there (`Move`).
-/

namespace AccessControl

namespace TokenRecord

/-- Until when the revocation list has to name the record, if at all. -/
def revokedUntil? (r : TokenRecord) : Option Instant :=
  if r.isRevoked then some r.expiresAt else none

/-- Subject, tenant and application are those that the claims name. -/
structure OfClaims (r : TokenRecord) : Prop where
  subject : r.claims.subject? = some r.subject
  tenant : r.claims.tenant? = some r.tenant
  app : r.claims.app? = some r.app

theorem OfClaims.mark {r : TokenRecord} (h : r.OfClaims) (time : Instant) : (r.mark time).OfClaims := by
  obtain ⟨time', he⟩ := r.mark_eq time
  rw [he]
  exact { h with }

@[simp] theorem expiresAt_mark (r : TokenRecord) (time : Instant) :
    (r.mark time).expiresAt = r.expiresAt := by
  obtain ⟨time', he⟩ := r.mark_eq time
  rw [he]

@[simp] theorem subject_mark (r : TokenRecord) (time : Instant) :
    (r.mark time).subject = r.subject := by
  obtain ⟨time', he⟩ := r.mark_eq time
  rw [he]

theorem revokedUntil?_mark (r : TokenRecord) (time : Instant) :
    (r.mark time).revokedUntil? = some r.expiresAt := by
  obtain ⟨time', he⟩ := r.mark_eq time
  rw [he]
  rfl

theorem revokedUntil?_eq_some {r : TokenRecord} {t : Instant} :
    r.revokedUntil? = some t ↔ r.isRevoked = true ∧ r.expiresAt = t := by
  unfold revokedUntil?
  cases r.isRevoked <;> simp

end TokenRecord

namespace TokenManager

open Backend Relation

variable {m : TokenManager} {b b' : Backend} {id : TokenId}

/-! ### What requests do to the books -/

/-- A record is taken up for a value that was drawn for it, or a record that is there is struck out on
both sides. -/
inductive Move (m : TokenManager) : Backend → Backend → Prop
  | issue {b : Backend} {r : TokenRecord}
    (hid : r.id = OpaqueValue.id m.primitives (b.supply.value b.drawn)) (hclaims : r.OfClaims)
    (hclean : r.revokedAt = none) :
    Move m b { b with drawn := b.drawn + 1, store := b.store.insert r }
  | strike {b : Backend} {id : TokenId} {r : TokenRecord} (h : b.store.find? id = some r)
    (time : Instant) :
    Move m b
      { b with
        revocations := (b.revocations.add id r.expiresAt).2
        store := (b.store.revoke r.subject id time).2 }

abbrev Moves (m : TokenManager) : Backend → Backend → Prop := ReflTransGen m.Move

theorem Move.supply_eq (h : m.Move b b') : b'.supply = b.supply := by
  cases h <;> rfl

theorem Move.drawn_le (h : m.Move b b') : b.drawn ≤ b'.drawn := by
  cases h <;> simp

theorem Moves.supply_eq (h : m.Moves b b') : b'.supply = b.supply := by
  induction h with
  | refl => rfl
  | tail _ h ih => exact h.supply_eq.trans ih

theorem Moves.drawn_le (h : m.Moves b b') : b.drawn ≤ b'.drawn := by
  induction h with
  | refl => exact Nat.le_refl _
  | tail _ h ih => exact Nat.le_trans ih h.drawn_le

theorem Drew.mono (h : m.Drew b id) (hsupply : b'.supply = b.supply) (hdrawn : b.drawn ≤ b'.drawn) :
    m.Drew b' id := by
  obtain ⟨n, hn, hid⟩ := h
  exact ⟨n, Nat.lt_of_lt_of_le hn hdrawn, by rw [hid, hsupply]⟩

/-- An opaque value that is yet to be drawn names no record that was taken up before. -/
theorem Drew.ne_value (h : m.Drew b id) (hstored : m.backing = .stored) {i n : Nat}
    (hi : b.drawn ≤ i) (hn : i < n) (hfresh : b.supply.Fresh m.primitives n) :
    id ≠ OpaqueValue.id m.primitives (b.supply.value i) := by
  rintro rfl
  obtain ⟨j, hj, he⟩ := h
  rw [idAt, hstored] at he
  have hij := hfresh.distinct i hn j (by omega) he
  omega

/-- The books are in order: records are of values that were drawn, say what their claims say, and are
named by the list exactly if they are marked. -/
structure Booked (m : TokenManager) (b : Backend) : Prop where
  drawn : ∀ id r, b.store.find? id = some r → m.Drew b id
  claims : ∀ id r, b.store.find? id = some r → r.OfClaims
  listed : ∀ id, b.revocations.expiry? id = (b.store.find? id).bind TokenRecord.revokedUntil?

theorem booked_new (m : TokenManager) (start : Instant) (supply : Supply) :
    m.Booked (.new start supply) where
  drawn _ _ h := by cases h
  claims _ _ h := by cases h
  listed _ := rfl

/-- The new record takes the place of no other, so the list does not name it. -/
theorem Booked.insert (hb : m.Booked b) (hstored : m.backing = .stored) {r : TokenRecord}
    (hid : r.id = OpaqueValue.id m.primitives (b.supply.value b.drawn)) (hclaims : r.OfClaims)
    (hclean : r.revokedAt = none) (hfresh : b.supply.Fresh m.primitives (b.drawn + 1)) :
    m.Booked { b with drawn := b.drawn + 1, store := b.store.insert r } := by
  have hnone : b.store.find? r.id = none := by
    rw [Option.eq_none_iff_forall_ne_some]
    intro r' hr'
    exact (hb.drawn _ _ hr').ne_value hstored (Nat.le_refl _) (Nat.lt_succ_self _) hfresh hid
  refine ⟨fun id r' hr' => ?_, fun id r' hr' => ?_, fun id => ?_⟩
  · rw [TokenStore.find?_insert] at hr'
    split at hr'
    next he => exact ⟨b.drawn, Nat.lt_succ_self _, by rw [he, hid, idAt, hstored]⟩
    · exact (hb.drawn id r' hr').mono rfl (Nat.le_succ _)
  · rw [TokenStore.find?_insert] at hr'
    split at hr'
    · exact Option.some.inj hr' ▸ hclaims
    · exact hb.claims id r' hr'
  · rw [TokenStore.find?_insert]
    split
    next he =>
      rw [he, hb.listed, hnone, Option.bind_some, TokenRecord.revokedUntil?,
        TokenRecord.isRevoked, hclean]
      rfl
    · exact hb.listed id

theorem Booked.strike (hb : m.Booked b) {r : TokenRecord} (hr : b.store.find? id = some r)
    (time : Instant) :
    m.Booked
      { b with
        revocations := (b.revocations.add id r.expiresAt).2
        store := (b.store.revoke r.subject id time).2 } := by
  refine ⟨fun id' r' hr' => ?_, fun id' r' hr' => ?_, fun id' => ?_⟩
  · rw [TokenStore.find?_revoke] at hr'
    obtain ⟨r'', hr'', -⟩ := Option.map_eq_some_iff.1 hr'
    exact hb.drawn id' r'' hr''
  · rw [TokenStore.find?_revoke] at hr'
    obtain ⟨r'', hr'', rfl⟩ := Option.map_eq_some_iff.1 hr'
    have hclaims := hb.claims id' r'' hr''
    split
    · exact hclaims.mark time
    · exact hclaims
  · rw [RevocationList.expiry?_add, TokenStore.find?_revoke]
    by_cases he : id' = id
    · rw [if_pos he, he, hr, Option.map_some, Option.bind_some, if_pos ⟨rfl, rfl⟩,
        TokenRecord.revokedUntil?_mark, hb.listed, hr, Option.bind_some]
      -- An entry that is there already has the same expiry.
      cases hu : r.revokedUntil? with
      | none => rfl
      | some t =>
        rw [(TokenRecord.revokedUntil?_eq_some.1 hu).2]
        exact congrArg some (Instant.latest_self t)
    · rw [if_neg he, hb.listed]
      cases b.store.find? id' with
      | none => rfl
      | some r' => rw [Option.map_some, if_neg fun h => he h.1]

theorem Booked.move (hb : m.Booked b) (h : m.Move b b') (hstored : m.backing = .stored)
    (hfresh : b.supply.Fresh m.primitives b'.drawn) : m.Booked b' := by
  cases h with
  | issue hid hclaims hclean => exact hb.insert hstored hid hclaims hclean hfresh
  | strike hr time => exact hb.strike hr time

theorem Booked.moves (hb : m.Booked b) (h : m.Moves b b') (hstored : m.backing = .stored)
    (hfresh : b.supply.Fresh m.primitives b'.drawn) : m.Booked b' := by
  induction h with
  | refl => exact hb
  | tail hs h ih =>
    refine (ih (hfresh.mono h.drawn_le)).move h hstored ?_
    rw [Moves.supply_eq hs]
    exact hfresh

/-! ### Requests are made of such moves -/

theorem Issues.move {c : Claims} {kind : TokenKind} {t : Token} (h : m.Issues c kind b t b')
    (hstored : m.backing = .stored) : m.Move b b' := by
  obtain ⟨hvalue, hid⟩ := h.stored hstored
  obtain ⟨s, hs, -⟩ := h.subject
  rw [h.after, keep, hstored]
  refine .issue (r := t.record c) (hid.trans (by rw [hvalue])) ⟨?_, h.tenant, h.app⟩ rfl
  show c.subject? = some (c.subject?.getD default)
  rw [hs]
  rfl

theorem found_stored (hstored : m.backing = .stored) {value : String} {v : Verified} {marked : Bool}
    (h : m.found b value = .ok (v, marked)) :
    ∃ r, b.store.find? v.details.id = some r ∧ v = ⟨r.claims, r.details⟩ ∧ marked = r.isRevoked := by
  obtain ⟨r, hr, hid, hv, hmarked⟩ := find?_of_found hstored h
  exact ⟨r, by rw [← hid, TokenStore.id_of_find? hr, hr], hv, hmarked⟩

theorem Revokes.moves {value : String} {o : Outcome (Except TokenError Unit)}
    (h : m.Revokes value b o b') (hstored : m.backing = .stored) : m.Moves b b' := by
  cases h with
  | signed hsigned =>
    rw [hstored] at hsigned
    cases hsigned
  | stored _ hr => exact .single (.strike hr b.clock)
  | _ => exact .refl

theorem Rotates.moves {value : String} {o : Outcome (Except TokenError TokenPair)}
    (h : m.Rotates value b o b') (hstored : m.backing = .stored) (hb : m.Booked b)
    (hfresh : b.supply.Fresh m.primitives b'.drawn) : m.Moves b b' := by
  cases h with
  | halfway _ _ haccess => exact .single (haccess.move hstored)
  | @rotated v pair b₁ b₂ hv _ haccess hrefresh =>
    refine .head (haccess.move hstored) (.head (hrefresh.move hstored) ?_)
    obtain ⟨r, hr, he, -⟩ := found_stored hstored (verdict_ok hv).1
    have hdrawn₁ := haccess.drawn_eq
    have hdrawn₂ : (m.retired b₂ v).drawn = b₁.drawn + 1 := hrefresh.drawn_eq
    -- The presented record is still there after the two new ones were taken up.
    have hne : ∀ i, b.drawn ≤ i → i < (m.retired b₂ v).drawn → v.details.id ≠ m.idAt b.supply i := by
      intro i hi hn
      rw [idAt, hstored]
      exact (hb.drawn _ r hr).ne_value hstored hi hn hfresh
    have haccessed : b.Agrees b₁ v.details.id := by
      refine haccess.agrees ?_
      rw [haccess.id_eq]
      exact hne _ (Nat.le_refl _) (by omega)
    have hrefreshed : b₁.Agrees b₂ v.details.id := by
      refine hrefresh.agrees ?_
      rw [hrefresh.id_eq, haccess.supply_eq]
      exact hne _ (by omega) (by omega)
    have hr₂ : b₂.store.find? v.details.id = some r := by
      rw [hrefreshed.record, haccessed.record, hr]
    have hsubject : v.claims.subject? = some r.subject := he ▸ (hb.claims _ r hr).subject
    have hexpires : v.details.expiresAt = r.expiresAt := he ▸ rfl
    have hstrike := Move.strike (m := m) hr₂ b₂.clock
    rw [retired, marked, hstored, hsubject, hexpires]
    exact .single hstrike
  | _ => exact .refl

theorem moves_revokeEach (m : TokenManager) {subject : SubjectId} (now : Instant)
    {rs : List TokenRecord} {b : Backend}
    (h : ∀ r ∈ rs, ∃ r', b.store.find? r.id = some r' ∧ r'.subject = subject ∧
      r'.expiresAt = r.expiresAt) :
    m.Moves b (b.exec (revokeEach subject now rs)).2 := by
  induction rs generalizing b with
  | nil => exact .refl
  | cons r rs ih =>
    obtain ⟨r', hr', hsubject, hexpires⟩ := h r List.mem_cons_self
    have hstrike := Move.strike (m := m) hr' now
    rw [hsubject, hexpires] at hstrike
    obtain ⟨new, hnew⟩ := owned_revoke hr' now
    rw [hsubject] at hnew
    rw [exec_revokeEach_cons, hnew]
    refine .head hstrike (ih fun x hx => ?_)
    -- Striking out a record leaves the owner and the expiry of all others.
    obtain ⟨x', hx', hxsubject, hxexpires⟩ := h x (List.mem_cons_of_mem _ hx)
    refine ⟨_, (TokenStore.find?_revoke ..).trans (by rw [hx', Option.map_some]), ?_⟩
    split
    · simp [hxsubject, hxexpires]
    · exact ⟨hxsubject, hxexpires⟩

theorem moves_revokeAll (hstored : m.backing = .stored) (tenant : TenantId) (subject : SubjectId)
    (b : Backend) : m.Moves b (b.exec (m.revokeAll tenant subject)).2 := by
  rw [exec_revokeAll hstored]
  refine moves_revokeEach m b.clock fun r hr => ?_
  obtain ⟨hfind, -, hsubject, -⟩ := mem_liveRecords.1 hr
  exact ⟨r, hfind, hsubject, rfl⟩

/-- A request that is no sweep takes up and strikes out records. -/
theorem Booked.moves_serve (hb : m.Booked b) (hstored : m.backing = .stored) {q : TokenRequest}
    (hsweep : q ≠ .sweep) (hfresh : b.supply.Fresh m.primitives (b.serve m q).2.drawn) :
    m.Moves b (b.serve m q).2 := by
  unfold Backend.serve at hfresh ⊢
  cases q with
  | generate c kind =>
    simp only [TokenManager.serve, run_reply, generate]
    split
    · rcases exec_issue m c kind b with ⟨t, b', he, hissues⟩ | ⟨he, -⟩ | ⟨he, -⟩ <;> rw [he]
      exact .single (hissues.move hstored)
    · exact .refl
  | verify value =>
    simp only [TokenManager.serve, run_reply, exec_verify]
    exact .refl
  | refresh value =>
    simp only [TokenManager.serve, run_reply] at hfresh ⊢
    exact (exec_refresh m value b).moves hstored hb hfresh
  | revoke value =>
    simp only [TokenManager.serve, run_reply]
    exact (exec_revoke m value b).moves hstored
  | revokeAll tenant subject =>
    simp only [TokenManager.serve, run_reply]
    exact moves_revokeAll hstored tenant subject b
  | sweep => exact absurd rfl hsweep

/-! ### Sweeps and scripts -/

theorem serve_sweep_stored (hstored : m.backing = .stored) (b : Backend) :
    (b.serve m .sweep).2 =
      { b with
        revocations := b.revocations.cleanup b.clock
        store := b.store.cleanup b.clock } := by
  obtain ⟨report, he⟩ := serve_sweep m b
  rw [he, hasStore, hstored]
  rfl

/-- A sweep drops a record and its entry on the list together. -/
theorem Booked.sweep (hb : m.Booked b) (hstored : m.backing = .stored) :
    m.Booked (b.serve m .sweep).2 := by
  rw [serve_sweep_stored hstored]
  refine ⟨fun id r hr => ?_, fun id r hr => ?_, fun id => ?_⟩
  · rw [TokenStore.find?_cleanup] at hr
    exact hb.drawn id r (Option.filter_eq_some_iff.1 hr).1
  · rw [TokenStore.find?_cleanup] at hr
    exact hb.claims id r (Option.filter_eq_some_iff.1 hr).1
  · rw [RevocationList.expiry?_cleanup, TokenStore.find?_cleanup, hb.listed]
    cases b.store.find? id with
    | none => rfl
    | some r =>
      rw [Option.bind_some, TokenRecord.revokedUntil?]
      by_cases hexpired : r.expiresAt ≤ b.clock
      · cases r.isRevoked <;>
          simp [Option.filter, TokenRecord.isExpired, hexpired, Instant.not_lt.2 hexpired]
      · cases hr : r.isRevoked <;>
          simp [Option.filter, TokenRecord.isExpired, TokenRecord.revokedUntil?, hexpired,
            Instant.not_le.1 hexpired, hr]

theorem Booked.step (hb : m.Booked b) (hstored : m.backing = .stored) (s : TokenStep)
    (hfresh : b.supply.Fresh m.primitives (b.step m s).drawn) : m.Booked (b.step m s) := by
  cases s with
  | clock t => exact { hb with }
  | request q =>
    by_cases hsweep : q = .sweep
    · subst hsweep
      exact hb.sweep hstored
    · exact hb.moves (hb.moves_serve hstored hsweep hfresh) hstored hfresh

theorem Booked.after (hb : m.Booked b) (hstored : m.backing = .stored) {script : List TokenStep}
    (hfresh : b.supply.Fresh m.primitives (b.after m script).drawn) : m.Booked (b.after m script) := by
  induction script generalizing b with
  | nil => exact hb
  | cons s script ih =>
    rw [after_cons] at hfresh ⊢
    refine ih (hb.step hstored s (hfresh.mono (drawn_le_after ..))) ?_
    rwa [supply_step]

/-- However a manager of opaque tokens is used and the clock is set, the revocation list names exactly
the marked records, each until its expiry; every record is kept under its own identifier and says what
its claims say; and after a sweep nothing is left on either side that expires by then. -/
theorem list_matches_records (hstored : m.backing = .stored) {start : Instant} {supply : Supply}
    {script : List TokenStep} (hb : b = (Backend.new start supply).after m script)
    (hfresh : supply.Fresh m.primitives b.drawn) :
    (∀ id t, b.revocations.expiry? id = some t ↔
      ∃ r, b.store.find? id = some r ∧ r.isRevoked = true ∧ r.expiresAt = t) ∧
    (∀ id r, b.store.find? id = some r → r.id = id ∧ r.claims.subject? = some r.subject ∧
      r.claims.tenant? = some r.tenant ∧ r.claims.app? = some r.app) ∧
    (∀ id r, (b.serve m .sweep).2.store.find? id = some r → b.clock < r.expiresAt) ∧
    (∀ id t, (b.serve m .sweep).2.revocations.expiry? id = some t → b.clock < t) := by
  have hbooked : m.Booked b := hb ▸ (booked_new m start supply).after hstored (hb ▸ hfresh)
  refine ⟨fun id t => ?_, fun id r hr => ?_, fun id r hr => ?_, fun id t ht => ?_⟩
  · rw [hbooked.listed, Option.bind_eq_some_iff]
    simp only [TokenRecord.revokedUntil?_eq_some]
  · have hclaims := hbooked.claims id r hr
    exact ⟨TokenStore.id_of_find? hr, hclaims.subject, hclaims.tenant, hclaims.app⟩
  · rw [serve_sweep_stored hstored, TokenStore.find?_cleanup] at hr
    obtain ⟨-, hlive⟩ := Option.filter_eq_some_iff.1 hr
    simpa [TokenRecord.isExpired, Instant.not_le] using hlive
  · rw [serve_sweep_stored hstored, RevocationList.expiry?_cleanup] at ht
    exact of_decide_eq_true (Option.filter_eq_some_iff.1 ht).2

end TokenManager

namespace Sample

variable (p : Primitives)

/-- A token is issued and revoked, and half an hour passes. -/
def revocationScript : List TokenStep :=
  [.request (.generate claims .refresh), .request (.revoke (token p .refresh).value),
    .clock ⟨1700001800, 0⟩]

theorem expiry?_revoked :
    (revoked p).revocations.expiry? (token p .refresh).id = some ⟨1700604800, 0⟩ := by
  have h := TokenManager.exec_revoke (manager p) (token p .refresh).value (issued p .refresh)
  have hfound := found_token p .refresh
  simp only [revoked, Backend.serve, TokenManager.serve, Backend.run_reply]
  generalize (issued p .refresh).exec ((manager p).revoke (token p .refresh).value) = result at h ⊢
  obtain ⟨o, b'⟩ := result
  cases h with
  | rejected h | unknown _ h =>
    rw [hfound] at h
    cases h
  | expired h hexpired =>
    rw [hfound] at h
    obtain ⟨rfl, -⟩ := Prod.mk.inj (Except.ok.inj h)
    have hlive : ¬(⟨1700604800, 0⟩ : Instant) ≤ ⟨1700000000, 0⟩ := by decide
    exact absurd hexpired hlive
  | signed hsigned => cases hsigned
  | @stored r _ hr =>
    obtain rfl := Option.some.inj ((find?_token p .refresh).symm.trans hr)
    exact (RevocationList.expiry?_add ..).trans (if_pos rfl)

/-- The backend half an hour after the token was revoked. -/
def struckOut : Backend := empty.after (manager p) (revocationScript p)

theorem expiry?_struckOut :
    (struckOut p).revocations.expiry? (token p .refresh).id = some ⟨1700604800, 0⟩ :=
  expiry?_revoked p

theorem drawn_struckOut : (struckOut p).drawn = 1 := (revoked_eq p).1

end Sample

open Sample in
theorem TokenManager.revoked_is_listed :
    ∃ r, (struckOut .standard).store.find? (token .standard .refresh).id = some r ∧
      r.isRevoked = true ∧ r.expiresAt = ⟨1700604800, 0⟩ := by
  have hdrawn : (struckOut .standard).drawn ≤ 4 := by
    rw [drawn_struckOut]
    decide
  exact ((list_matches_records (m := manager .standard) rfl rfl (fresh_four.mono hdrawn)).1 _ _).1
    (expiry?_struckOut .standard)

end AccessControl
