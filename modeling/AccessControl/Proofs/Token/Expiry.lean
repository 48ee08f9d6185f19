import AccessControl.Proofs.Token.Bearing
import AccessControl.Proofs.Token.Bookkeeping

/-!
# Expired tokens

From its expiry on a token verifies as expired, whether it was revoked or exchanged or not, and
wherever the clock was in between. The one thing that changes the reason is a sweep: it drops the
record of an opaque token that has expired, and without the record the token is unknown
(`expired_or_swept`). So the record of a token is followed through a script, by its expiry only.
-/

namespace AccessControl

/-- When the record under an identifier expires, if there is one. -/
def Backend.recordExpiry? (b : Backend) (id : TokenId) : Option Instant :=
  (b.store.find? id).map TokenRecord.expiresAt

namespace TokenManager

open Backend

variable {m : TokenManager} {b b' : Backend} {t : Token} {id : TokenId}

/-! ### The record of a token -/

theorem Move.recordExpiry?_eq (h : m.Move b b') (hstored : m.backing = .stored)
    (hdrew : m.Drew b id) (hfresh : b.supply.Fresh m.primitives b'.drawn) :
    b'.recordExpiry? id = b.recordExpiry? id := by
  unfold recordExpiry?
  cases h with
  | issue hid =>
    have hne := hdrew.ne_value hstored (Nat.le_refl _) (Nat.lt_succ_self _) hfresh
    rw [TokenStore.find?_insert, hid, if_neg hne]
  | strike hr time =>
    rw [TokenStore.find?_revoke, Option.map_map]
    congr 1
    funext r
    simp only [Function.comp]
    split
    · exact r.expiresAt_mark time
    · rfl

theorem Moves.recordExpiry?_eq (h : m.Moves b b') (hstored : m.backing = .stored)
    (hdrew : m.Drew b id) (hfresh : b.supply.Fresh m.primitives b'.drawn) :
    b'.recordExpiry? id = b.recordExpiry? id := by
  induction h with
  | refl => rfl
  | tail hs h ih =>
    have hsupply := Moves.supply_eq hs
    refine (h.recordExpiry?_eq hstored (hdrew.mono hsupply (Moves.drawn_le hs)) ?_).trans
      (ih (hfresh.mono h.drawn_le))
    rw [hsupply]
    exact hfresh

/-- Of all steps only a sweep drops a record, and only one that has expired. -/
theorem recordExpiry?_step (hb : m.Booked b) (hstored : m.backing = .stored) (hdrew : m.Drew b id)
    (s : TokenStep) (hfresh : b.supply.Fresh m.primitives (b.step m s).drawn) :
    (b.step m s).recordExpiry? id =
      (b.recordExpiry? id).filter fun e => !(s.isSweep && e ≤ b.clock) := by
  have hother : s.isSweep = false →
      (b.recordExpiry? id).filter (fun e => !(s.isSweep && e ≤ b.clock)) = b.recordExpiry? id := by
    intro h
    rw [h]
    cases b.recordExpiry? id <;> rfl
  cases s with
  | clock time => exact (hother rfl).symm
  | request q =>
    by_cases hsweep : q = .sweep
    · subst hsweep
      rw [step, serve_sweep_stored hstored, recordExpiry?, TokenStore.find?_cleanup, recordExpiry?,
        Option.filter_map]
      rfl
    · rw [hother (by cases q <;> first | rfl | exact absurd rfl hsweep)]
      exact Moves.recordExpiry?_eq (hb.moves_serve hstored hsweep hfresh) hstored hdrew hfresh

theorem recordExpiry?_after (hb : m.Booked b) (hstored : m.backing = .stored) (hdrew : m.Drew b id)
    {script : List TokenStep} (hfresh : b.supply.Fresh m.primitives (b.after m script).drawn) :
    (b.after m script).recordExpiry? id =
      (b.recordExpiry? id).filter fun e => !sweptPast e b.clock script := by
  induction script generalizing b with
  | nil =>
    rw [after_nil]
    cases b.recordExpiry? id <;> rfl
  | cons s script ih =>
    have hfresh' : b.supply.Fresh m.primitives (b.step m s).drawn :=
      hfresh.mono (drawn_le_after ..)
    have hdrew' : m.Drew (b.step m s) id := hdrew.mono (supply_step b s) (drawn_le_step b s)
    rw [after_cons, ih (hb.step hstored s hfresh') hdrew' (by rwa [supply_step]),
      recordExpiry?_step hb hstored hdrew s hfresh', clock_step, Option.filter_filter]
    simp only [sweptPast, Bool.not_or]

/-! ### The verdict -/

theorem verdict_expired {value : String} {v : Verified} {marked : Bool}
    (h : m.found b value = .ok (v, marked)) (hexpired : v.details.expiresAt ≤ b.clock) :
    m.verdict b value = .error .expired := by
  rw [verdict, h]
  exact if_pos hexpired

/-- What is left of a record that expires at `e` decides the reason. -/
theorem verdict_of_recordExpiry? (hstored : m.backing = .stored) {value : String}
    (hform : OpaqueValue.isWellFormed value = true) {e : Instant} (hexpired : e ≤ b.clock)
    {p : Instant → Bool}
    (h : b.recordExpiry? (OpaqueValue.id m.primitives value) = (some e).filter p) :
    m.verdict b value = .error (if p e then .expired else .notFound) := by
  rw [Option.filter_some] at h
  split at h
  next hp =>
    obtain ⟨r, hr, rfl⟩ := Option.map_eq_some_iff.1 h
    rw [if_pos hp]
    exact verdict_expired (found_of_find? hstored hform hr) hexpired
  next hp =>
    have hnone : b.store.find? (OpaqueValue.id m.primitives value) = none :=
      Option.map_eq_none_iff.1 h
    simp [verdict, found, hstored, hform, hnone, hp]

/-- A token is alive when it is handed out, and its record is there. -/
theorem recordExpiry?_issued {q : TokenRequest} (hlife : ∀ kind, 0 < m.settings.lifetime kind)
    (hread : b.clock.IsReading) (hstored : m.backing = .stored)
    (hissued : t ∈ (TokenEvent.served q (b.serve m q).1).issued)
    (hi : m.Issued (b.serve m q).2 t) : (b.serve m q).2.recordExpiry? t.id = some t.expiresAt := by
  obtain ⟨c, kind, b₁, b₂, -, hclock, hissues, -⟩ := issues_of_issued hissued
  have hlive : b.clock < t.expiresAt := hclock ▸ hissues.live hlife (hclock ▸ hread)
  have hsame : (b.serve m q).2.clock = b.clock := clock_step b (.request q)
  obtain ⟨r, hr⟩ := hi.kept hstored (hsame.symm ▸ hlive)
  rw [recordExpiry?, hr, Option.map_some, (hi.record hstored r hr).expiresAt]

/-- A signed value that can be read at all is expired from its expiry on. -/
theorem verdict_expired_signed {k : SignedCodec} (hsigned : m.backing = .signed k)
    (hi : m.Issued b' t) (hexpired : t.expiresAt ≤ b.clock) :
    ∃ f, m.verdict b t.value = .error f ∧ ∀ v, k.decode t.value = .ok v → f = .expired := by
  cases hv : k.decode t.value with
  | error f =>
    refine ⟨f, ?_, fun v hv' => by cases hv'⟩
    simp [verdict, found, hsigned, hv, Except.map]
  | ok v =>
    obtain ⟨c, hvalue⟩ := hi.signed k hsigned
    obtain ⟨-, -, hexpires⟩ := SignedCodec.details_of_decode_encode hi.whole hi.exact (hvalue ▸ hv)
    exact ⟨.expired, verdict_expired (found_of_decode hsigned hv) (hexpires.symm ▸ hexpired),
      fun _ _ => rfl⟩

/-- An opaque value is expired from its expiry on until its record is swept. -/
theorem verdict_expired_stored {q : TokenRequest} {after : List TokenStep}
    (hlife : ∀ kind, 0 < m.settings.lifetime kind) (hread : b.clock.IsReading)
    (hstored : m.backing = .stored) (hb : m.Booked b)
    (hissued : t ∈ (TokenEvent.served q (b.serve m q).1).issued)
    (hfresh : b.supply.Fresh m.primitives ((b.serve m q).2.after m after).drawn)
    (hexpired : t.expiresAt ≤ ((b.serve m q).2.after m after).clock) :
    m.verdict ((b.serve m q).2.after m after) t.value =
      .error (if sweptPast t.expiresAt b.clock after then .notFound else .expired) := by
  have hsupply : (b.serve m q).2.supply = b.supply := supply_step b (.request q)
  have hdrawn := drawn_le_after (m := m) (b.serve m q).2 after
  have hi : m.Issued (b.serve m q).2 t := issued_serve hlife hread (hfresh.mono hdrawn) hissued
  obtain ⟨n, hn, hvalue⟩ := hi.drawn hstored
  have hform : OpaqueValue.isWellFormed t.value = true := by
    rw [hvalue, hsupply]
    exact hfresh.wellFormed n (Nat.lt_of_lt_of_le hn hdrawn)
  have hdrew : m.Drew (b.serve m q).2 t.id :=
    ⟨n, hn, by rw [hi.named hstored, hvalue, idAt, hstored]⟩
  have hbooked : m.Booked (b.serve m q).2 := hb.step hstored (.request q) (hfresh.mono hdrawn)
  have hkept := recordExpiry?_after hbooked hstored hdrew (hsupply.symm ▸ hfresh)
  rw [recordExpiry?_issued hlife hread hstored hissued hi,
    show (b.serve m q).2.clock = b.clock from clock_step b (.request q), hi.named hstored] at hkept
  rw [verdict_of_recordExpiry? hstored hform hexpired hkept]
  cases sweptPast t.expiresAt b.clock after <;> rfl

/-- From its expiry on an issued token is rejected, whatever is done to it and wherever the clock is
meanwhile. It is reported as expired, except that an opaque token is not found once a sweep found it
expired; a signed value must be readable for that. -/
theorem expired_or_swept {p : Primitives} {s : TokenSettings} (hm : new? p s = .ok m)
    {start : Instant} {supply : Supply} {before after : List TokenStep} {q : TokenRequest}
    {b₁ : Backend} (hb₁ : b₁ = (Backend.new start supply).after m before)
    (hb : b = (b₁.serve m q).2.after m after) (hread : b₁.clock.IsReading)
    (hissued : t ∈ (TokenEvent.served q (b₁.serve m q).1).issued)
    (hfresh : supply.Fresh m.primitives b.drawn) (hexpired : t.expiresAt ≤ b.clock) :
    ∃ f, (b.serve m (.verify t.value)).1 = .done (.verdict (.ok (.error f))) ∧
      (m.hasStore = true →
        f = if sweptPast t.expiresAt b₁.clock after then .notFound else .expired) ∧
      ∀ k v, m.backing = .signed k → k.decode t.value = .ok v → f = .expired := by
  have hlife := lifetime_pos hm
  have hsupply : b₁.supply = supply := by rw [hb₁, supply_after]; rfl
  have hdrawn : (b₁.serve m q).2.drawn ≤ b.drawn := hb ▸ drawn_le_after ..
  have hserved : b₁.supply.Fresh m.primitives (b₁.serve m q).2.drawn :=
    hsupply ▸ hfresh.mono hdrawn
  rw [serve_verify]
  cases hbacking : m.backing with
  | signed k =>
    have hi : m.Issued (b₁.serve m q).2 t := issued_serve hlife hread hserved hissued
    obtain ⟨f, hf, hreason⟩ := verdict_expired_signed hbacking hi hexpired
    have hno : m.hasStore = false := by rw [hasStore, hbacking]
    refine ⟨f, by rw [hf], fun h => absurd (hno.symm.trans h) (by decide), fun k' v hk' => ?_⟩
    cases hk'
    exact hreason v
  | stored =>
    have hissuing : b₁.drawn ≤ b.drawn := Nat.le_trans (drawn_le_step b₁ (.request q)) hdrawn
    have hbooked : m.Booked b₁ :=
      hb₁ ▸ (booked_new m start supply).after hbacking (hb₁ ▸ hfresh.mono hissuing)
    subst hb
    refine ⟨_, by rw [verdict_expired_stored hlife hread hbacking hbooked hissued
      (hsupply ▸ hfresh) hexpired], fun _ => rfl, fun _ _ hsigned => by cases hsigned⟩

end TokenManager

namespace Sample

variable (p : Primitives)

theorem serve_token :
    empty.serve (manager p) (.generate claims .refresh) =
      (.done (.token (.ok (token p .refresh))), issued p .refresh) := rfl

/-- The token is revoked, and its week passes. -/
def lapseScript : List TokenStep :=
  [.request (.revoke (token p .refresh).value), .clock ⟨1700604800, 0⟩]

def lapsed : Backend :=
  (empty.serve (manager p) (.generate claims .refresh)).2.after (manager p) (lapseScript p)

theorem lapsed_eq : lapsed p = { revoked p with clock := ⟨1700604800, 0⟩ } := rfl

theorem drawn_lapsed : (lapsed p).drawn = 1 := (revoked_eq p).1

theorem expired_lapsed : (token p .refresh).expiresAt ≤ (lapsed p).clock := by
  rw [lapsed_eq]
  exact Instant.le_refl _

/-- The token's week passes, and then there is a sweep. -/
def sweptOver : Backend :=
  (issued p .refresh).after (manager p) [.clock ⟨1700604800, 0⟩, .request .sweep]

theorem find?_sweptOver : (sweptOver p).store.find? (token p .refresh).id = none := by
  have hswept := TokenManager.serve_sweep_stored (m := manager p) rfl
    { issued p .refresh with clock := ⟨1700604800, 0⟩ }
  have hexpired : ((token p .refresh).record claims).isExpired ⟨1700604800, 0⟩ = true := by
    show decide ((⟨1700604800, 0⟩ : Instant) ≤ ⟨1700604800, 0⟩) = true
    decide
  rw [sweptOver, Backend.after_cons, Backend.after_cons, Backend.after_nil, Backend.step,
    Backend.step, hswept, TokenStore.find?_cleanup, find?_token, Option.filter_some, hexpired]
  rfl

theorem expired_sweptOver : (token p .refresh).expiresAt ≤ (sweptOver p).clock := by
  rw [sweptOver, Backend.after_cons, Backend.after_cons, Backend.after_nil, Backend.clock_step]
  exact Instant.le_refl _

/-- A token that a sweep found expired is not found any more, instead of being reported as
expired. -/
theorem swept_not_found :
    (empty.serve (manager .standard) (.generate claims .refresh)) =
        (.done (.token (.ok (token .standard .refresh))), issued .standard .refresh) ∧
      (token .standard .refresh).expiresAt ≤ (sweptOver .standard).clock ∧
      ((sweptOver .standard).serve (manager .standard)
        (.verify (token .standard .refresh).value)).1 = .done (.verdict (.ok (.error .notFound))) := by
  have hfound : (manager .standard).found (sweptOver .standard) (token .standard .refresh).value =
      .error .notFound := by
    have hform := isWellFormed_value .standard .refresh
    have hnone : (sweptOver .standard).store.find?
        (OpaqueValue.id .standard (token .standard .refresh).value) = none :=
      find?_sweptOver .standard
    simp only [TokenManager.found, manager, hform, if_true]
    rw [hnone]
  refine ⟨serve_token .standard, expired_sweptOver .standard, ?_⟩
  rw [TokenManager.serve_verify, TokenManager.verdict, hfound]

end Sample

open Sample in
theorem TokenManager.expired_though_revoked :
    ((lapsed .standard).serve (manager .standard) (.verify (token .standard .refresh).value)).1 =
      .done (.verdict (.ok (.error .expired))) := by
  have hdrawn : (lapsed .standard).drawn ≤ 4 := by
    rw [drawn_lapsed]
    decide
  have hempty : empty = (Backend.new ⟨1700000000, 0⟩ .counting).after (manager .standard) [] := rfl
  have hissued : token .standard .refresh ∈ (TokenEvent.served (.generate claims .refresh)
      (empty.serve (manager .standard) (.generate claims .refresh)).1).issued := by
    rw [serve_token]
    exact List.mem_singleton_self _
  obtain ⟨f, hf, hreason, -⟩ := expired_or_swept (m := manager .standard)
    (b := lapsed .standard) (p := .standard) (s := .opaqueValues) rfl hempty rfl (by decide)
    hissued (fresh_four.mono hdrawn) (expired_lapsed .standard)
  rw [hf, hreason rfl]
  rfl

end AccessControl
