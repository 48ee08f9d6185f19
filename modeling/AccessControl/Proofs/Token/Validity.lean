import AccessControl.Proofs.Token.Frame

/-!
# Issued tokens verify until they expire

A token that is issued for checked claims verifies with these claims until its expiry and as expired
from then on, however many requests are served in between, as long as none of them addresses the
token (`valid_until_expiry`). This holds for every record, and for every signed value whose claims
have the registered form; a signed value with others is malformed from the start.
-/

namespace AccessControl
namespace TokenManager

open Backend

variable {m : TokenManager} {b b' : Backend}

/-- Issuing for checked claims succeeds if the expiry is representable. -/
theorem serve_generate {c : Claims} {kind : TokenKind} (hc : c.check = .ok ())
    (hlife : ∀ kind, 0 < m.settings.lifetime kind) (hread : b.clock.IsReading)
    (hmin : Instant.minSeconds ≤ b.clock.seconds + m.settings.lifetime kind)
    (hmax : b.clock.seconds + m.settings.lifetime kind ≤ Instant.maxSeconds) :
    ∃ t, (b.serve m (.generate c kind)).1 = .done (.token (.ok t)) ∧
      m.Issues c kind b t (b.serve m (.generate c kind)).2 := by
  simp only [Backend.serve, TokenManager.serve, run_reply, generate, hc]
  rcases exec_issue_of_check hc kind b with ⟨t, b', he, hissues⟩ | ⟨-, hnone⟩
  · exact ⟨t, by rw [he]; rfl, by rw [he]; exact hissues⟩
  · exact absurd hnone (expires_of_fit hlife hread hmin hmax)

/-- From the moment a token is issued for checked claims it verifies as these claims, and from its
expiry on as expired. -/
theorem valid_until_expiry {p : Primitives} {s : TokenSettings} (hm : new? p s = .ok m)
    {c : Claims} {kind : TokenKind} (hc : c.check = .ok ()) (hfloat : c.floatFree) (hexact : c.exact)
    (hread : b.clock.IsReading) (hmin : Instant.minSeconds ≤ b.clock.seconds)
    (hepoch : 0 ≤ b.clock.seconds + m.settings.lifetime kind)
    (hmax : b.clock.seconds + m.settings.lifetime kind ≤ Instant.maxSeconds)
    (hnew : b.revocations.contains (m.idAt b.supply b.drawn) = false)
    {answer : Outcome TokenReply} {after : List TokenEvent}
    (hrun : m.Runs b (.served (.generate c kind) answer :: after) b')
    (hdistinct : b.supply.Distinct m.primitives b'.drawn) :
    ∃ t, answer = .done (.token (.ok t)) ∧ t.kind = kind ∧ t.issuedAt = b.clock.wholeSecond ∧
      t.expiresAt = ⟨b.clock.seconds + m.settings.lifetime kind, 0⟩ ∧
      ((∀ q o, .served q o ∈ after → ¬q.Addresses m t) →
        (b'.clock < t.expiresAt ∨ m.hasStore = false ∨ ∀ o, .served .sweep o ∉ after) →
        (b'.serve m (.verify t.value)).1 = .done (.verdict (.ok (
          if m.legible c = false then .error .malformed
          else if t.expiresAt ≤ b'.clock then .error .expired
          else .ok ⟨c, m.shown t.details⟩)))) ∧
      (b.clock.nanos < 1000000000 → m.shown t.details = t.details) := by
  have hlife := lifetime_pos hm
  have hplain : c.Plain := Claims.plain_of_check hc hfloat hexact
  have hscope : c.hasScope := (Claims.check_eq_ok.1 hc).2.1
  obtain ⟨t, hanswer, hissues⟩ :=
    serve_generate hc hlife hread (Int.le_trans (by decide) hepoch) hmax
  cases hrun with
  | serve q hafter =>
    refine ⟨t, hanswer, hissues.of_kind, hissues.issuedAt, (hissues.expiry hlife hread).1,
      fun hleft hkept => ?_, fun hwhole => shown_of_whole m ?_⟩
    rotate_left
    · rw [Token.details, hissues.issuedAt, Instant.wholeSecond, Nat.mod_eq_of_lt hwhole,
        Nat.sub_self]
    generalize (b.serve m (.generate c kind)).2 = b₁ at hissues hafter
    have hsupply := hissues.supply_eq
    have hsupply' : b'.supply = b₁.supply := Changes.supply_eq hafter.changes
    have hdrawn : b.drawn < b'.drawn := by
      have := Changes.drawn_le hafter.changes
      rw [hissues.drawn_eq] at this
      exact this
    rw [← hsupply] at hdistinct
    have hbears := hissues.bears hlife hread hmin hepoch (hsupply ▸ hdistinct.named _ hdrawn)
    have hbears' := hbears.changes hafter.changes hdistinct
    have hunrevoked : m.revoked b' t.id = false := by
      refine hafter.unrevoked hbears hdistinct hleft ?_
      rw [hissues.revoked, hissues.id_eq]
      exact hnew
    have hholds : m.holds b' t.id = true := by
      rcases hkept with hlive | hsigned | hsweep
      · have hissued := hissues.issued hlife hread
        exact (hissued.changes hafter.changes hdistinct.toFresh).holds hlive
      · exact holds_of_signed hsigned b' t.id
      · exact hafter.holds hbears hdistinct hleft hsweep hissues.holds
    rw [serve_verify, hbears'.verdict hplain hscope (hsupply' ▸ hdistinct), hholds, hunrevoked]
    simp

end TokenManager

namespace Sample

/-! ### A signed token -/

def signedSettings : TokenSettings := .signed "0123456789abcdef0123456789abcdef"

def codec : SignedCodec :=
  ⟨.standard, .hs256, Text.bytes signedSettings.secret, signedSettings.issuer,
    signedSettings.audience⟩

def signedManager : TokenManager := ⟨signedSettings, .signed codec, .standard⟩

theorem issued_signed {c : Claims} (hc : c.check = .ok ()) (kind : TokenKind) :
    ∃ t, (empty.serve signedManager (.generate c kind)).1 = .done (.token (.ok t)) ∧
      signedManager.Issues c kind empty t (empty.serve signedManager (.generate c kind)).2 := by
  refine TokenManager.serve_generate hc (TokenManager.lifetime_pos (s := signedSettings) rfl)
    (by decide) ?_ ?_
  all_goals cases kind <;> decide

/-- Claims with a registered name that holds a list. -/
def listedSubject : Claims := claims.insert "sub" (.arr [.str "alice"])

/-- Such claims are issued, and the signed value is malformed at once. -/
theorem listedSubject_malformed :
    ∃ t, (empty.serve signedManager (.generate listedSubject .access)).1 =
        .done (.token (.ok t)) ∧
      ((empty.serve signedManager (.generate listedSubject .access)).2.serve signedManager
        (.verify t.value)).1 = .done (.verdict (.ok (.error .malformed))) := by
  have hlife := TokenManager.lifetime_pos (m := signedManager) (s := signedSettings) rfl
  have hplain : listedSubject.Plain := ⟨by decide, by decide, by decide, by decide⟩
  obtain ⟨t, ht, hissues⟩ := issued_signed (c := listedSubject) rfl .access
  refine ⟨t, ht, ?_⟩
  have hbears := hissues.bears hlife (by decide) (by decide) (by decide) (by decide +kernel)
  have hdistinct := distinct_four.mono (Nat.le_add_left 1 3)
  rw [TokenManager.serve_verify, hbears.verdict hplain (by decide)
    (by rw [hissues.supply_eq, hissues.drawn_eq]; exact hdistinct)]
  rfl

/-- A minute after a signed token was issued. -/
def minuteLater : Backend :=
  { (empty.serve signedManager (.generate claims .access)).2 with clock := ⟨1700000060, 0⟩ }

end Sample

open Sample in
theorem TokenManager.valid_after_a_minute :
    ∃ t, (empty.serve signedManager (.generate claims .access)).1 = .done (.token (.ok t)) ∧
      (minuteLater.serve signedManager (.verify t.value)).1 =
        .done (.verdict (.ok (.ok ⟨claims, t.details⟩))) := by
  obtain ⟨_, -, hissues⟩ := issued_signed (c := claims) rfl .access
  have hle : (empty.serve signedManager (.generate claims .access)).2.clock ≤ ⟨1700000060, 0⟩ := by
    rw [hissues.clock_eq]
    decide
  have hrun : signedManager.Runs empty _ minuteLater :=
    .serve (.generate claims .access) (.clock (by decide) hle (.stop _))
  have hdistinct : Supply.counting.Distinct .standard minuteLater.drawn := by
    rw [minuteLater, hissues.drawn_eq]
    exact distinct_four.mono (Nat.le_add_left 1 3)
  obtain ⟨t, ht, hkind, hissued, hexpires, hverify, hshown⟩ := valid_until_expiry
    (m := signedManager) (s := signedSettings) rfl (c := claims) rfl (by decide) (by decide)
    (by decide) (by decide) (by decide) (by decide) rfl hrun hdistinct
  have hlive : minuteLater.clock < t.expiresAt := by
    rw [hexpires]
    decide
  refine ⟨t, ht, ?_⟩
  rw [hverify (fun q o hq => by simp at hq) (.inl hlive), if_neg (by decide),
    if_neg (Instant.not_le.2 hlive), hshown (by decide)]

end AccessControl
