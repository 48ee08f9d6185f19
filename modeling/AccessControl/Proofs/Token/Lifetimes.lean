import AccessControl.Proofs.Token.Conduct
import AccessControl.Proofs.Token.FailFast
import AccessControl.Settings

/-!
# How long a lifetime may be

The check of the settings asks for positive lifetimes and sets no upper bound. With the settings
that it accepts a manager can always be set up, but a lifetime may lead from the present moment out
of the representable years, and then issuing a token is broken off (`TokenManager.aborts_iff`). As
long as no lifetime does, no request is broken off, whatever the collaborators answer.
-/

namespace AccessControl

namespace Instant

/-- The end of a lifetime is not representable if it comes after the last representable second. -/
theorem addSeconds?_eq_none {a : Instant} {n : Int} (hread : a.IsReading)
    (hmin : minSeconds ≤ a.seconds) (hn : 0 < n) :
    a.wholeSecond.addSeconds? n = none ↔ maxSeconds < a.seconds + n := by
  rw [addSeconds?_wholeSecond hread hn, ofSeconds?]
  split
  · next h => exact iff_of_false (Option.some_ne_none _) (by omega)
  · next h => exact iff_of_true rfl (by omega)

end Instant

namespace TokenSettings

theorem check_eq_ok {s : TokenSettings} (h : s.check = .ok ()) :
    (s.format = .signed → s.secret ≠ "") ∧ ∀ kind, 0 < s.lifetime kind := by
  unfold check at h
  split at h
  · cases h
  next hsecret =>
    split at h
    · cases h
    next haccess =>
      split at h
      · cases h
      next hrefresh =>
        refine ⟨fun hformat hnone => hsecret ⟨hformat, hnone⟩, fun kind => ?_⟩
        cases kind with
        | access => exact Int.not_le.1 haccess
        | refresh => exact Int.not_le.1 hrefresh

end TokenSettings

/-- Settings that could be loaded have been checked. -/
theorem Settings.check_of_load {text : String} {env : Environment} {s : Settings}
    (h : load text env = .ok s) : s.tokens.check = .ok () := by
  unfold load at h
  split at h
  · next s' _ =>
    obtain ⟨tokens, -, h⟩ := Except.bind_eq_ok.1 h
    obtain ⟨u, hcheck, h⟩ := Except.bind_eq_ok.1 h
    obtain rfl := Except.ok.inj h
    show tokens.check = .ok ()
    cases hc : tokens.check with
    | ok u => rfl
    | error f =>
      rw [hc] at hcheck
      cases hcheck
  · cases h

namespace TokenManager

variable {m : TokenManager} {b : Backend} {c : Claims} {kind : TokenKind} {value : String}

open Backend

/-- Settings that pass the check are enough for a manager. -/
theorem new?_of_check (p : Primitives) {s : TokenSettings} (h : s.check = .ok ()) :
    ∃ m, new? p s = .ok m ∧ m.settings = s := by
  unfold new?
  rw [h]
  cases hformat : s.format with
  | opaqueValue => exact ⟨⟨s, .stored, p⟩, rfl, rfl⟩
  | signed =>
    have hcodec : SignedCodec.new? p s =
        .ok ⟨p, s.algorithm, Text.bytes s.secret, s.issuer, s.audience⟩ := by
      unfold SignedCodec.new?
      rw [if_neg ((TokenSettings.check_eq_ok h).1 hformat)]
    simp only [hcodec]
    exact ⟨_, rfl, rfl⟩

/-- Only the end of a lifetime can break a request off, whatever the collaborators answer. -/
theorem lifetime_of_aborted {q : TokenRequest} {ended : Option Cancelled} {ls : Lines}
    (h : ((m.serve q).run (respond ended) (b, ls)).1 = .aborted) :
    ∃ kind, b.clock.wholeSecond.addSeconds? (m.settings.lifetime kind) = none := by
  let I (past : List Exchange) (s : Backend × Lines) : Prop :=
    s.1.clock = b.clock ∧ ∀ t, Trace (·.Shows t) past → t = b.clock
  have hclock : ∀ past a bound s, I past s → (respond ended a bound s).2.1.clock = b.clock :=
    fun past a bound s hs => (respond_clock ended a bound s.1 s.2).trans hs.1
  have hshown : ∀ past a bound s y, I past s → (respond ended a bound s).1 = some y →
      ∀ t, Trace (·.Shows t) (past ++ [⟨a, y⟩]) → t = b.clock := by
    rintro past a bound ⟨b', ls'⟩ y ⟨hb', hshown⟩ hy t ht
    rcases trace_append.1 ht with ht | ht
    · exact hshown t ht
    · cases a with
      | now =>
        obtain rfl := Option.some.inj hy
        exact ht.symm.trans hb'
      | _ => exact ht.elim
  have hstart : I [] (b, ls) := ⟨rfl, fun t ht => absurd ht trace_nil⟩
  obtain ⟨past, hend, hmay⟩ := (follows_serve m q []).traced hstart fun past a bound s _ hs =>
    ⟨fun _ => ⟨hclock past a bound s hs, hs.2⟩,
      fun y hy => ⟨respond_expected hy, hclock past a bound s hs, hshown past a bound s y hs hy⟩⟩
  obtain ⟨t, kind, ht, hnone⟩ := hmay h
  rw [hend.2 t ht] at hnone
  exact ⟨kind, hnone⟩

theorem exec_issue_aborted (c : Claims)
    (h : b.clock.wholeSecond.addSeconds? (m.settings.lifetime kind) = none) :
    b.exec (m.issue c kind) = (.aborted, b) := by
  unfold issue
  rw [exec_bind, exec_now]
  simp only [h]
  rfl

theorem generate_aborted_iff :
    (b.exec (m.generate c kind)).1 = .aborted ↔ c.check = .ok () ∧
      b.clock.wholeSecond.addSeconds? (m.settings.lifetime kind) = none := by
  unfold generate
  cases hc : c.check with
  | error f => exact iff_of_false (fun h => by cases h) (fun h => by cases h.1)
  | ok u =>
    rcases exec_issue_of_check (m := m) hc kind b with ⟨t, b', he, hissues⟩ | ⟨he, hnone⟩
    · have hsome := hissues.expiresAt
      rw [hissues.issuedAt] at hsome
      simp only [he, hsome]
      exact iff_of_false (fun h => by cases h) (fun h => by cases h.2)
    · simp only [he, hnone, and_self]

/-- A rotation is broken off at the first token whose lifetime is too long; it gets to the second
one only if the claims name their subject. -/
theorem refresh_aborted_iff :
    (b.exec (m.refresh value)).1 = .aborted ↔
      ∃ v, m.verdict b value = .ok v ∧ v.details.kind = .refresh ∧
        (b.clock.wholeSecond.addSeconds? (m.settings.lifetime .access) = none ∨
          v.claims.subject?.isSome ∧
            b.clock.wholeSecond.addSeconds? (m.settings.lifetime .refresh) = none) := by
  constructor
  · intro h
    have hrotates := exec_refresh m value b
    rw [h] at hrotates
    generalize (b.exec (m.refresh value)).2 = b' at hrotates
    cases hrotates with
    | aborted hv hkind hnone => exact ⟨_, hv, hkind, .inl hnone⟩
    | halfway hv hkind haccess hnone =>
      obtain ⟨subject, hsubject, -⟩ := haccess.subject
      rw [haccess.clock_eq] at hnone
      exact ⟨_, hv, hkind, .inr ⟨by rw [hsubject]; rfl, hnone⟩⟩
  · rintro ⟨v, hv, hkind, hnone⟩
    by_cases haccess : b.clock.wholeSecond.addSeconds? (m.settings.lifetime .access) = none
    · unfold refresh
      rw [exec_bind, exec_verify, hv]
      simp only
      rw [if_pos hkind, exec_bind, exec_issue_aborted v.claims haccess]
    · obtain ⟨hsubject, hnone⟩ := hnone.resolve_left haccess
      have hrotates := exec_refresh m value b
      generalize (b.exec (m.refresh value)).1 = o at hrotates ⊢
      generalize (b.exec (m.refresh value)).2 = b' at hrotates
      cases hrotates with
      | rejected h =>
        rw [hv] at h
        cases h
      | wrongKind h hkind' =>
        rw [hv] at h
        exact absurd (Except.ok.inj h ▸ hkind) hkind'
      | incomplete h hmissing =>
        rw [hv] at h
        obtain rfl := Except.ok.inj h
        have hscope := (verdict_ok hv).2.2.2
        rw [Claims.hasScope, Bool.and_eq_true, Option.isSome_iff_ne_none,
          Option.isSome_iff_ne_none] at hscope
        rcases hmissing with h | h | h
        · exact absurd h hscope.1
        · exact absurd h hscope.2
        · rw [h] at hsubject
          cases hsubject
      | aborted => rfl
      | halfway => rfl
      | rotated h _ hfirst hsecond =>
        have hsome := hsecond.expiresAt
        rw [hsecond.issuedAt, hfirst.clock_eq, hnone] at hsome
        cases hsome

/-- Settings that pass the check, as all loaded settings have, are enough for a manager. Its
requests are broken off only where a lifetime ends after the last representable second, whatever the
collaborators answer; and there generating a token and exchanging one are. -/
theorem aborts_iff (p : Primitives) :
    (∀ text env s, Settings.load text env = .ok s → s.tokens.check = .ok ()) ∧
    ∀ s : TokenSettings, s.check = .ok () → ∃ m, new? p s = .ok m ∧
      ∀ b : Backend, b.clock.IsReading → Instant.minSeconds ≤ b.clock.seconds →
        ((∀ kind, b.clock.seconds + s.lifetime kind ≤ Instant.maxSeconds) →
          ∀ q ended ls, ((m.serve q).run (respond ended) (b, ls)).1 ≠ .aborted) ∧
        (∀ c kind, (b.exec (m.generate c kind)).1 = .aborted ↔
          c.check = .ok () ∧ Instant.maxSeconds < b.clock.seconds + s.lifetime kind) ∧
        ∀ value, (b.exec (m.refresh value)).1 = .aborted ↔
          ∃ v, m.verdict b value = .ok v ∧ v.details.kind = .refresh ∧
            (Instant.maxSeconds < b.clock.seconds + s.lifetime .access ∨
              v.claims.subject?.isSome ∧
                Instant.maxSeconds < b.clock.seconds + s.lifetime .refresh) := by
  refine ⟨fun text env s => Settings.check_of_load, fun s hs => ?_⟩
  obtain ⟨m, hm, rfl⟩ := new?_of_check p hs
  refine ⟨m, hm, fun b hread hmin => ?_⟩
  have hnone : ∀ kind, b.clock.wholeSecond.addSeconds? (m.settings.lifetime kind) = none ↔
      Instant.maxSeconds < b.clock.seconds + m.settings.lifetime kind := fun kind =>
    Instant.addSeconds?_eq_none hread hmin ((TokenSettings.check_eq_ok hs).2 kind)
  refine ⟨fun hfit q ended ls haborted => ?_, fun c kind => ?_, fun value => ?_⟩
  · obtain ⟨kind, hkind⟩ := lifetime_of_aborted haborted
    exact absurd (hfit kind) (Int.not_le.2 ((hnone kind).1 hkind))
  · rw [generate_aborted_iff, hnone]
  · rw [refresh_aborted_iff]
    simp only [hnone]

end TokenManager

namespace Sample

/-- Settings with the greatest lifetime that can be written. -/
def endless : TokenSettings :=
  { TokenSettings.opaqueValues with accessLifetime := TokenSettings.signedBound - 1 }

/-- The check accepts a lifetime with which no token can be issued. -/
theorem endless_accepted_and_aborted :
    endless.check = .ok () ∧ ∃ m, TokenManager.new? .standard endless = .ok m ∧
      (empty.exec (m.generate claims .access)).1 = .aborted :=
  ⟨rfl, ⟨endless, .stored, .standard⟩, rfl, rfl⟩

end Sample

open Sample in
/-- The usual lifetimes break nothing off in our days, and the greatest one does. -/
theorem TokenManager.aborts_only_endless :
    (∃ m, new? .standard .opaqueValues = .ok m ∧
      ((m.serve (.generate claims .refresh)).run (Backend.respond none) (empty, .direct)).1 ≠
        .aborted) ∧
    ∃ m, new? .standard endless = .ok m ∧
      (empty.exec (m.generate claims .access)).1 = .aborted := by
  obtain ⟨-, haborts⟩ := aborts_iff .standard
  have hread : empty.clock.IsReading := by decide
  have hmin : Instant.minSeconds ≤ empty.clock.seconds := by decide
  constructor
  · obtain ⟨m, hm, h⟩ := haborts .opaqueValues rfl
    have hfit : ∀ kind, empty.clock.seconds + TokenSettings.opaqueValues.lifetime kind ≤
        Instant.maxSeconds := by
      intro kind
      cases kind <;> decide
    exact ⟨m, hm, (h empty hread hmin).1 hfit _ _ _⟩
  · obtain ⟨m, hm, h⟩ := haborts endless rfl
    exact ⟨m, hm, ((h empty hread hmin).2.1 claims .access).2 ⟨rfl, by decide⟩⟩

end AccessControl
