import AccessControl.Proofs.Token.Lineage
import AccessControl.Proofs.Token.Reporting

/-!
# Rotations that try again

Reports that fail without effect never keep a rotation from handing its pair out. It reports its token
until one report is heard, but only so many times (`TokenManager.attempts`); the number of reports is
known, and whether the presented token is revoked at the end or still verifies (`refresh_perseveres`).
-/

namespace AccessControl

namespace Delivery

/-- The first `k` reports fail without effect. -/
def leading (k : Nat) (faults : Nat → CallFault) (n : Nat) : Delivery :=
  if n < k then .failed (faults n) else .heard

variable {k n : Nat} {faults : Nat → CallFault}

theorem isHeard_leading : (leading k faults n).IsHeard ↔ k ≤ n := by
  unfold leading
  split <;> simp [IsHeard] <;> omega

theorem isRecorded_leading : (leading k faults n).IsRecorded ↔ k ≤ n := by
  unfold leading
  split <;> simp [IsRecorded] <;> omega

theorem unheard_leading : Unheard (leading k faults) 0 n ↔ n ≤ k := by
  constructor
  · intro h
    by_contra hlt
    exact h k (Nat.zero_le k) (Nat.lt_of_not_le hlt) (isHeard_leading.2 (Nat.le_refl k))
  · intro hle i _ hi hheard
    have := isHeard_leading.1 hheard
    omega

theorem recorded_leading : Recorded (leading k faults) 0 n ↔ k < n := by
  constructor
  · rintro ⟨i, -, hi, hrecorded⟩
    exact Nat.lt_of_le_of_lt (isRecorded_leading.1 hrecorded) hi
  · intro hlt
    exact ⟨k, Nat.zero_le k, hlt, isRecorded_leading.2 (Nat.le_refl k)⟩

end Delivery

namespace TokenManager

open Backend Delivery

variable {m : TokenManager} {c : Claims} {t : Token} {v : Verified} {b b' : Backend}

/-- The token was issued for the claims some time before `b`. Since then any questions were answered,
whoever asked them, and the clock was set, but no other record was kept under its identifier. -/
inductive IssuedFor (m : TokenManager) (c : Claims) (t : Token) : Backend → Prop
  | issued {kind : TokenKind} {b b' : Backend} (hread : b.clock.IsReading)
    (hmin : Instant.minSeconds ≤ b.clock.seconds) (h : m.Issues c kind b t b') : IssuedFor m c t b'
  | answered {b : Backend} (h : IssuedFor m c t b) (q : Ask)
    (hq : ∀ r, q = .insertRecord r → r.id ≠ t.id) : IssuedFor m c t (b.answer q).2
  | clock {b : Backend} (h : IssuedFor m c t b) (time : Instant) :
    IssuedFor m c t { b with clock := time }

theorem Bears.answer (h : m.Bears b t c) {q : Ask} (hq : ∀ r, q = .insertRecord r → r.id ≠ t.id) :
    m.Bears (b.answer q).2 t c where
  tenant := h.tenant
  subject := h.subject
  drawn := by
    obtain ⟨n, hn, hdrawn⟩ := h.drawn
    rw [b.answer_supply q]
    exact ⟨n, Nat.lt_of_lt_of_le hn (b.drawn_le_answer q), hdrawn⟩
  signed := h.signed
  record hs r hr := by
    rcases found_of_answer hr with ⟨rfl, hid⟩ | ⟨r', hr', hbecomes⟩
    · exact absurd hid (hq r rfl)
    · obtain ⟨mark, rfl⟩ := h.record hs r' hr'
      obtain ⟨mark', rfl⟩ := hbecomes.eq
      exact ⟨mark', rfl⟩

theorem IssuedFor.bears_of_writable (h : m.IssuedFor c t b)
    (hwritable : ∀ k, m.backing = .signed k → t.details.Writable) : m.Bears b t c := by
  induction h with
  | issued _ _ h => exact h.bears_of_writable hwritable
  | answered _ q hq ih => exact ih.answer hq
  | clock _ time ih => exact { ih with }

theorem IssuedFor.origin (h : m.IssuedFor c t b) :
    ∃ kind b₀ b₁, b₀.clock.IsReading ∧ Instant.minSeconds ≤ b₀.clock.seconds ∧
      m.Issues c kind b₀ t b₁ ∧ b₁.supply = b.supply ∧ b₁.drawn ≤ b.drawn := by
  induction h with
  | issued hread hmin h => exact ⟨_, _, _, hread, hmin, h, rfl, Nat.le_refl _⟩
  | @answered b _ q _ ih =>
    obtain ⟨kind, b₀, b₁, hread, hmin, h, hsupply, hdrawn⟩ := ih
    exact ⟨kind, b₀, b₁, hread, hmin, h, hsupply.trans (b.answer_supply q).symm,
      Nat.le_trans hdrawn (b.drawn_le_answer q)⟩
  | clock _ _ ih => exact ih

/-- A token that still verifies bears the claims it was issued for. -/
theorem IssuedFor.bears (h : m.IssuedFor c t b) (hlife : ∀ kind, 0 < m.settings.lifetime kind)
    (hdistinct : b.supply.Distinct m.primitives b.drawn) (hepoch : 0 ≤ b.clock.seconds)
    (hverdict : m.verdict b t.value = .ok v) : m.Bears b t c := by
  refine h.bears_of_writable ?_
  intro k hk
  obtain ⟨kind, b₀, b₁, hread, hmin, hissues, hsupply, hdrawn⟩ := h.origin
  obtain ⟨hfound, hlive, -, -⟩ := verdict_ok hverdict
  obtain ⟨hexpires, hmax⟩ := hissues.expiry hlife hread
  have hlater : Instant.minSeconds ≤ b₀.clock.seconds + m.settings.lifetime kind := by
    have := hlife kind
    omega
  have hdecode := decode_of_found hk hfound
  rw [(hissues.signed k hk).2] at hdecode
  obtain ⟨-, -, hsame⟩ := SignedCodec.details_of_decode_encode (by rw [Token.details, hexpires])
    (by rw [Token.details, hexpires]; exact Json.Numeral.exact_of_seconds hlater hmax) hdecode
  -- The clock has passed 1970 and not yet the expiry.
  have hexpiry : 0 ≤ b₀.clock.seconds + m.settings.lifetime kind := by
    rw [hsame, Token.details, hexpires] at hlive
    exact Int.le_trans hepoch (Instant.seconds_le (Instant.le_of_lt hlive))
  refine hissues.writable hlife hread hmin hexpiry ?_ hk
  have hdrew := hissues.drawn_eq
  rw [← hissues.supply_eq, hsupply]
  exact hdistinct.named _ (by omega)

/-! ### After the reports -/

theorem Reported.agrees {id id' : TokenId} {p : Prop} (h : m.Reported id b b' p) (hne : id' ≠ id) :
    b.Agrees b' id' := by
  refine ⟨?_, by rw [h.store_eq]⟩
  rw [Bool.eq_iff_iff, h.listed id']
  simp [hne]

section

variable {plan : Nat → Delivery} {pair pair' : TokenPair} {n' : Nat}

/-- A rotation that hands its pair out has changed nothing but the presented token. -/
theorem Settles.after (h : m.Settles v plan pair b (.ok pair') b' n') :
    m.Changes b b' ∧ (∀ id, id ≠ v.details.id → b.Agrees b' id) ∧ b'.clock = b.clock ∧
      b'.drawn = b.drawn := by
  cases h with
  | won _ _ _ _ hreported =>
    exact ⟨hreported.changes.trans (changes_marked ..),
      fun id hne => (hreported.agrees hne).trans (agrees_marked _ hne), hreported.clock_eq,
      hreported.drawn_eq⟩
  | unheard _ hreported =>
    exact ⟨hreported.changes, fun id hne => hreported.agrees hne, hreported.clock_eq,
      hreported.drawn_eq⟩

end

/-- If the first reports fail without effect, the pair is handed out: the first report that is heard
is the first one recorded. -/
theorem Settles.of_leading {k n' : Nat} {faults : Nat → CallFault} {pair : TokenPair}
    {r : Except TokenError TokenPair} (h : m.Settles v (leading k faults) pair b r b' n') :
    r = .ok pair ∧ n' = min (k + 1) m.attempts ∧
      (Recorded (leading k faults) 0 n' ↔ k < m.attempts) := by
  cases h with
  | won hj hbefore hheard =>
    have hle := unheard_leading.1 hbefore
    have hge := isHeard_leading.1 hheard
    rw [recorded_leading]
    refine ⟨rfl, ?_, ?_⟩ <;> omega
  | lost _ hbefore _ hrecorded =>
    have hle := unheard_leading.1 hbefore
    have hlt := recorded_leading.1 hrecorded
    omega
  | unheard hall =>
    have hle := unheard_leading.1 hall
    exact ⟨rfl, by omega, recorded_leading⟩

/-- However many reports fail without effect at first, a rotation of a token that verifies hands out a
pair, and both new tokens verify with the claims of the presented one. This is revoked once a report
is heard. If none is among the reports that the rotation makes, it still verifies, and its record
is not marked. The identifiers that are drawn must be new, also to the revocation list. -/
theorem refresh_perseveres {p : Primitives} {s : TokenSettings} (hm : new? p s = .ok m)
    (hcheck : c.check = .ok ()) (hfloat : c.floatFree) (hexact : c.exact) (hissued : m.IssuedFor c t b)
    (hread : b.clock.IsReading) (hepoch : 0 ≤ b.clock.seconds)
    (hmax : ∀ kind, b.clock.seconds + m.settings.lifetime kind ≤ Instant.maxSeconds)
    (hdistinct : b.supply.Distinct m.primitives (b.drawn + 2))
    (hnew : ∀ i, b.drawn ≤ i → i < b.drawn + 2 →
      b.revocations.contains (m.idAt b.supply i) = false)
    (hverdict : m.verdict b t.value = .ok v) (hkind : v.details.kind = .refresh) (k : Nat)
    (faults : Nat → CallFault) :
    ∃ pair b', (m.refresh t.value).run.run (delivering (leading k faults)) (b, 0) =
        (.done (.ok pair), (b', min (k + 1) m.attempts)) ∧
      pair.access.kind = .access ∧ pair.refresh.kind = .refresh ∧
      (∀ x ∈ [pair.access, pair.refresh],
        m.verdict b' x.value = .ok ⟨v.claims, m.shown x.details⟩) ∧
      (k < m.attempts → m.verdict b' t.value = .error .revoked) ∧
      (m.attempts ≤ k → m.verdict b' t.value = .ok v ∧
        (m.backing = .stored → ∃ r, b'.store.find? t.id = some r ∧ r.isRevoked = false)) := by
  have hlife := lifetime_pos hm
  have hplain := Claims.plain_of_check hcheck hfloat hexact
  have hnow := hdistinct.mono (Nat.le_add_right b.drawn 2)
  have hbears := hissued.bears hlife hnow hepoch hverdict
  obtain ⟨rfl, hlegible⟩ := hbears.claims_of_found hplain hnow (verdict_ok hverdict).1
  have hexpires : ∀ kind, b.clock.wholeSecond.addSeconds? (m.settings.lifetime kind) ≠ none := by
    intro kind
    have hlater := Int.add_nonneg hepoch (Int.le_of_lt (hlife kind))
    exact expires_of_fit hlife hread (Int.le_trans (by decide) hlater) (hmax kind)
  obtain ⟨pair, b₁, b₂, r, b', n', haccess, hrefresh, hrun, hsettles⟩ :=
    run_refresh_delivering hverdict hkind (Claims.check_eq_ok.1 hcheck).1 hexpires
      (leading k faults)
  obtain ⟨rfl, rfl, hrecorded⟩ := hsettles.of_leading
  obtain ⟨hchanges, hagrees, hclock, hdrawn⟩ := hsettles.after
  rw [shown_kind] at hkind
  have hex : m.Exchanges c t b pair b₁ b₂ := ⟨hverdict, hkind, hlegible, haccess, hrefresh⟩
  obtain ⟨-, haccess', hrefresh'⟩ := hex.apart hbears.drew hdistinct
  have hpresented : m.verdict b₂ t.value = .ok ⟨c, m.shown t.details⟩ := by
    refine verdict_of_agrees ?_ (hrefresh.clock_eq.trans haccess.clock_eq) hverdict
    rw [shown_id]
    exact (haccess.agrees haccess'.symm).trans (hrefresh.agrees hrefresh'.symm)
  obtain ⟨-, hrevoked, hvalid⟩ := hsettles.presented hpresented
  refine ⟨pair, b', hrun, haccess.of_kind, hrefresh.of_kind, ?_, ?_, ?_⟩
  · exact hex.valid_after hlife hread hepoch hdistinct hplain hbears.drew hnew hchanges
      (fun id hne => hagrees id (by rwa [shown_id])) hclock hdrawn
  · intro hlt
    exact hrevoked (hrecorded.2 hlt)
  · intro hle
    have hstill := hvalid fun h => Nat.not_lt.2 hle (hrecorded.1 h)
    refine ⟨hstill, ?_⟩
    intro hstored
    obtain ⟨r, hr, -, -, hmark⟩ := find?_of_found hstored (verdict_ok hstill).1
    rw [hbears.named hstored] at hr
    exact ⟨r, hr, hmark.symm⟩

end TokenManager

open Sample in
/-- All three reports of a rotation fail. -/
theorem TokenManager.kept_after_three_faults :
    ∃ pair b', ((manager .standard).refresh (token .standard .refresh).value).run.run
        (Backend.delivering (Delivery.leading 3 fun _ => .unavailable "timeout"))
        (issued .standard .refresh, 0) = (.done (.ok pair), (b', 3)) ∧
      (manager .standard).verdict b' pair.access.value = .ok ⟨claims, pair.access.details⟩ ∧
      (manager .standard).verdict b' (token .standard .refresh).value =
        .ok ⟨claims, (token .standard .refresh).details⟩ := by
  have hissued : (manager .standard).IssuedFor claims (token .standard .refresh)
      (issued .standard .refresh) :=
    @IssuedFor.issued _ _ _ .refresh empty _ (by decide) (by decide) (issues_serve rfl).2
  obtain ⟨pair, b', hrun, -, -, hvalid, -, hkept⟩ :=
    refresh_perseveres (m := manager .standard) (s := .opaqueValues) rfl rfl (by decide) (by decide)
      hissued (by decide) (by decide) (fun kind => by cases kind <;> decide)
      (distinct_four.mono (by decide)) (fun _ _ _ => rfl) (verdict_token .standard .refresh) rfl 3
      (fun _ => .unavailable "timeout")
  exact ⟨pair, b', hrun, hvalid _ List.mem_cons_self, (hkept (by decide)).1⟩

end AccessControl
