import AccessControl.Proofs.Token.Ledger
import AccessControl.Proofs.Token.Validity

/-!
# The token formats look alike

Two managers with the same lifetimes, whatever their formats, answer every script of commands alike
(`formats_alike`): replies differ only in values, identifiers and the format entry of the metadata.
Both are compared with the same ledger. Claims have to have the registered form: with others a signed
value is malformed and a record is not (`listedNotBefore_differs`).
-/

namespace AccessControl

/-- The same moment; a signed token has lost the fraction of a time of issue in a leap second. -/
def Instant.SameSecond (a a' : Instant) : Prop :=
  a = a' ∨ (a.seconds = a'.seconds ∧ (1000000000 ≤ a.nanos ∨ 1000000000 ≤ a'.nanos))

/-- A whole second, with or without its fraction in a leap second. -/
theorem Instant.sameSecond_of_whole {a x y : Instant} (ha : a.nanos = 0 ∨ 1000000000 ≤ a.nanos)
    (hx : x = a ∨ x = ⟨a.seconds, 0⟩) (hy : y = a ∨ y = ⟨a.seconds, 0⟩) : x.SameSecond y := by
  rcases ha with ha | ha
  · -- Outside leap seconds nothing is lost.
    have hcut : (⟨a.seconds, 0⟩ : Instant) = a := by rw [← ha]
    rw [hcut, or_self] at hx hy
    exact .inl (hx.trans hy.symm)
  · rcases hx with rfl | rfl
    · rcases hy with rfl | rfl
      · exact .inl rfl
      · exact .inr ⟨rfl, .inl ha⟩
    · rcases hy with rfl | rfl
      · exact .inr ⟨rfl, .inr ha⟩
      · exact .inl rfl

/-- Tokens that differ at most in value, identifier and format. -/
structure Token.Alike (t t' : Token) : Prop where
  kind : t.kind = t'.kind
  tenant : t.tenant = t'.tenant
  app : t.app = t'.app
  issuedAt : t.issuedAt = t'.issuedAt
  expiresAt : t.expiresAt = t'.expiresAt
  metadata : t.metadata.erase "format" = t'.metadata.erase "format"

/-- Verified tokens that differ at most in the identifier. -/
structure Verified.Alike (v v' : Verified) : Prop where
  claims : v.claims = v'.claims
  kind : v.details.kind = v'.details.kind
  issuedAt : v.details.issuedAt.SameSecond v'.details.issuedAt
  expiresAt : v.details.expiresAt = v'.details.expiresAt

/-- The same success or the same error. -/
inductive TokenReply.Alike : TokenReply → TokenReply → Prop
  | token {t t' : Token} (h : t.Alike t') : Alike (.token (.ok t)) (.token (.ok t'))
  | noToken (f : TokenError) : Alike (.token (.error f)) (.token (.error f))
  | valid {v v' : Verified} (h : v.Alike v') :
    Alike (.verdict (.ok (.ok v))) (.verdict (.ok (.ok v')))
  | invalid (f : VerificationFailure) :
    Alike (.verdict (.ok (.error f))) (.verdict (.ok (.error f)))
  | pair {p p' : TokenPair} (haccess : p.access.Alike p'.access)
    (hrefresh : p.refresh.Alike p'.refresh) : Alike (.pair (.ok p)) (.pair (.ok p'))
  | noPair (f : TokenError) : Alike (.pair (.error f)) (.pair (.error f))
  | revoked : Alike (.revoked (.ok ())) (.revoked (.ok ()))

/-- Both calls end alike. -/
inductive Outcome.Alike : Outcome TokenReply → Outcome TokenReply → Prop
  | done {r r' : TokenReply} (h : r.Alike r') : Alike (.done r) (.done r')
  | aborted : Alike .aborted .aborted

/-- The commands under which formats are compared: the clock shows times from 1970 on, and the claims
hold no doubles and have the registered form. -/
def TokenCommand.Admissible : TokenCommand → Prop
  | clock t => t.IsReading ∧ 0 ≤ t.seconds
  | generate c _ => c.floatFree ∧ c.exact ∧ c.registeredFit
  | verify _ | refresh _ | revoke _ => True

theorem TokenCommand.Admissible.canKeep {cmd : TokenCommand} (h : cmd.Admissible)
    (m : TokenManager) : m.CanKeep cmd := by
  cases cmd with
  | generate c kind =>
    refine ⟨h.1, h.2.1, ?_⟩
    unfold TokenManager.legible
    split
    · exact h.2.2
    · rfl
  | _ => exact h

/-- What stands in a common relation to the members of one list. -/
theorem forall₂_of_common {α β γ : Type} {R : α → β → Prop} {S : α → γ → Prop} {T : β → γ → Prop}
    (hcommon : ∀ a x y, R a x → S a y → T x y) {l : List α} {xs : List β} {ys : List γ}
    (h : List.Forall₂ R l xs) (h' : List.Forall₂ S l ys) : List.Forall₂ T xs ys := by
  induction h generalizing ys with
  | nil =>
    cases h'
    exact .nil
  | cons hr _ ih =>
    cases h' with
    | cons hs h' => exact .cons (hcommon _ _ _ hr hs) (ih h')

/-! ### Two managers and one ledger -/

namespace Ledger

theorem Entry.Describes.alike {e : Entry} {t t' : Token} (h : e.Describes t) (h' : e.Describes t') :
    t.Alike t' := by
  refine ⟨h.kind.trans h'.kind.symm, Option.some.inj (h.tenant.symm.trans h'.tenant),
    Option.some.inj (h.app.symm.trans h'.app), h.issuedAt.trans h'.issuedAt.symm,
    h.expiresAt.trans h'.expiresAt.symm, SortedMap.ext fun key => ?_⟩
  rw [SortedMap.get?_erase, SortedMap.get?_erase]
  split
  · rfl
  next hformat =>
    by_cases hsubject : key = "subject_id"
    · obtain ⟨s, hs, hmeta⟩ := h.subject
      obtain ⟨s', hs', hmeta'⟩ := h'.subject
      rw [hs] at hs'
      rw [hsubject, hmeta, hmeta', Option.some.inj hs']
    · rw [h.metadata key hformat hsubject, h'.metadata key hformat hsubject]

end Ledger

namespace TokenManager

open Ledger

variable {m m' : TokenManager}

theorem shown_issuedAt (m : TokenManager) (d : TokenDetails) :
    (m.shown d).issuedAt = d.issuedAt ∨ (m.shown d).issuedAt = ⟨d.issuedAt.seconds, 0⟩ := by
  unfold shown
  split
  · exact .inr rfl
  · exact .inl rfl

theorem ShowsEntry.alike {e : Entry} {v v' : Verified} (h : m.ShowsEntry e v)
    (h' : m'.ShowsEntry e v') : v.Alike v' := by
  obtain ⟨t, ht, rfl⟩ := h
  obtain ⟨t', ht', rfl⟩ := h'
  have hkind : t.details.kind = t'.details.kind := ht.kind.trans ht'.kind.symm
  have hexpires : t.details.expiresAt = t'.details.expiresAt := ht.expiresAt.trans ht'.expiresAt.symm
  have hissued : t.details.issuedAt = e.issuedAt := ht.issuedAt
  have hissued' : t'.details.issuedAt = e.issuedAt := ht'.issuedAt
  have hshown := shown_issuedAt m t.details
  have hshown' := shown_issuedAt m' t'.details
  rw [hissued] at hshown
  rw [hissued'] at hshown'
  exact ⟨rfl, by simp [hkind], Instant.sameSecond_of_whole ht.whole hshown hshown',
    by simp [hexpires]⟩

theorem Answers.alike {a : Outcome Ledger.Reply} {o o' : Outcome TokenReply} (h : m.Answers a o)
    (h' : m'.Answers a o') : o.Alike o' := by
  cases h with
  | aborted =>
    cases h'
    exact .aborted
  | done h =>
    cases h' with
    | done h' =>
      refine .done ?_
      cases h with
      | token h => cases h' with | token h' => exact .token (h.alike h')
      | noToken f => cases h'; exact .noToken f
      | valid h => cases h' with | valid h' => exact .valid (h.alike h')
      | invalid f => cases h'; exact .invalid f
      | pair haccess hrefresh =>
        cases h' with
        | pair haccess' hrefresh' => exact .pair (haccess.alike haccess') (hrefresh.alike hrefresh')
      | noPair f => cases h'; exact .noPair f
      | revoked => cases h'; exact .revoked

/-- Two managers with the same lifetimes answer every script alike, step by step. -/
theorem formats_alike {p p' : Primitives} {s s' : TokenSettings} (hm : new? p s = .ok m)
    (hm' : new? p' s' = .ok m') (hlife : m.settings.lifetime = m'.settings.lifetime)
    {start : Instant} (hread : start.IsReading) (hepoch : 0 ≤ start.seconds) {cmds : List TokenCommand}
    (hcmds : ∀ cmd ∈ cmds, cmd.Admissible) {supply supply' : Supply}
    (hdistinct : supply.Distinct m.primitives (2 * cmds.length))
    (hdistinct' : supply'.Distinct m'.primitives (2 * cmds.length)) :
    List.Forall₂ (Option.Rel Outcome.Alike) (m.play ⟨.new start supply, []⟩ cmds)
      (m'.play ⟨.new start supply', []⟩ cmds) := by
  have hanswers := (keeps_new m supply hread hepoch).play (lifetime_pos hm)
    (fun cmd hcmd => (hcmds cmd hcmd).canKeep m) (by simpa [Backend.new] using hdistinct)
  have hanswers' := (keeps_new m' supply' hread hepoch).play (lifetime_pos hm')
    (fun cmd hcmd => (hcmds cmd hcmd).canKeep m') (by simpa [Backend.new] using hdistinct')
  rw [← hlife] at hanswers'
  refine forall₂_of_common (fun a o o' h h' => ?_) hanswers hanswers'
  cases h with
  | none =>
    cases h'
    exact .none
  | some h =>
    cases h' with
    | some h' => exact .some (h.alike h')

end TokenManager

namespace Sample

open TokenManager

/-- A refresh token is issued and exchanged. -/
def exchange (c : Claims) : List TokenCommand := [.generate c .refresh, .refresh 0]

/-- Claims with a registered name that holds a list. -/
def listedNotBefore : Claims := claims.insert "nbf" (.arr [.int 1])

theorem play_exchange {m : TokenManager} {b : Backend} {c : Claims} {t : Token}
    (ht : (b.serve m (.generate c .refresh)).1 = .done (.token (.ok t))) :
    m.play ⟨b, []⟩ (exchange c) = [some (.done (.token (.ok t))),
      some ((b.serve m (.generate c .refresh)).2.serve m (.refresh t.value)).1] := by
  simp [play, exchange, TokenManager.obey, attend, TokenManager.present, ht, TokenEvent.issued,
    TokenReply.tokens]

/-- The signed value cannot be exchanged. -/
theorem exchange_signed : ∃ o, signedManager.play ⟨empty, []⟩ (exchange listedNotBefore) =
    [o, some (.done (.pair (.error (.rejected .malformed))))] := by
  have hlife := lifetime_pos (m := signedManager) (s := signedSettings) rfl
  have hplain : listedNotBefore.Plain := ⟨by decide, by decide, by decide, by decide⟩
  obtain ⟨t, ht, hissues⟩ := issued_signed (c := listedNotBefore) rfl .refresh
  have hbears := hissues.bears hlife (by decide) (by decide) (by decide) (by decide +kernel)
  have hverdict := hbears.verdict hplain (by decide)
    (by rw [hissues.supply_eq, hissues.drawn_eq]; exact distinct_four.mono (Nat.le_add_left 1 3))
  have hrejected := exec_refresh_rejected (hverdict.trans rfl)
  refine ⟨some (.done (.token (.ok t))), ?_⟩
  rw [play_exchange ht, Backend.serve, TokenManager.serve, Backend.run_reply, hrejected]
  rfl

/-- The opaque one can. -/
theorem exchange_opaque : ∃ o pair, (manager .standard).play ⟨empty, []⟩ (exchange listedNotBefore) =
    [o, some (.done (.pair (.ok pair)))] := by
  have hledger : ∃ first entries,
      Ledger.play (manager .standard).settings.lifetime ⟨⟨1700000000, 0⟩, []⟩
        (exchange listedNotBefore) = [first, some (.done (.pair (.ok entries)))] := ⟨_, _, rfl⟩
  have hkeeps : (manager .standard).Keeps ⟨empty, []⟩ ⟨⟨1700000000, 0⟩, []⟩ :=
    keeps_new (manager .standard) .counting (by decide) (by decide)
  have hcan : ∀ cmd ∈ exchange listedNotBefore, (manager .standard).CanKeep cmd := by
    rw [exchange, List.forall_mem_cons, List.forall_mem_singleton]
    exact ⟨⟨by decide, by decide, rfl⟩, trivial⟩
  have hanswers := hkeeps.play (lifetime_pos (s := .opaqueValues) (p := .standard) rfl) hcan
    distinct_four
  obtain ⟨first, entries, hledger⟩ := hledger
  rw [hledger] at hanswers
  generalize (manager .standard).play ⟨empty, []⟩ (exchange listedNotBefore) = os at hanswers ⊢
  cases hanswers with
  | @cons _ o _ _ _ hrest =>
    cases hrest with
    | cons hpair hend =>
      cases hend
      cases hpair with
      | some hpair =>
        cases hpair with
        | done hpair =>
          cases hpair with
          | @pair _ _ pair => exact ⟨o, pair, rfl⟩

/-- The formats answer differently when claims do not have the registered form. -/
theorem listedNotBefore_differs :
    ¬List.Forall₂ (Option.Rel Outcome.Alike)
      (signedManager.play ⟨empty, []⟩ (exchange listedNotBefore))
      ((manager .standard).play ⟨empty, []⟩ (exchange listedNotBefore)) := by
  obtain ⟨o, hsigned⟩ := exchange_signed
  obtain ⟨o', pair, hopaque⟩ := exchange_opaque
  rw [hsigned, hopaque]
  intro h
  cases h with
  | cons _ h =>
    cases h with
    | cons h _ =>
      cases h with
      | some h =>
        cases h with
        | done h => cases h

end Sample

open Sample in
theorem TokenManager.exchange_alike :
    List.Forall₂ (Option.Rel Outcome.Alike) (signedManager.play ⟨empty, []⟩ (exchange claims))
      ((manager .standard).play ⟨empty, []⟩ (exchange claims)) :=
  formats_alike (show new? .standard signedSettings = .ok signedManager from rfl)
    (show new? .standard .opaqueValues = .ok (manager .standard) from rfl) rfl (by decide) (by decide)
    (by
      rw [exchange, List.forall_mem_cons, List.forall_mem_singleton]
      exact ⟨⟨by decide, by decide, by decide⟩, trivial⟩)
    distinct_four distinct_four

end AccessControl
