import AccessControl.Proofs.Token.Forgetting
import AccessControl.Proofs.Token.Validity
import Mathlib.Data.List.Forall2

/-!
# Sweeps are not noticed

Whoever asks for tokens, presents them or revokes them is told the same whether there are sweeps in
between or not, as long as the clock does not go backwards (`sweeps_unnoticed`). The one difference
is that an opaque token is unknown after a sweep where it would be reported as expired without. Two
signed values for one token must not disagree on its expiry, because the list forgets the token with
the value that was revoked. A script is compared with the same script without its sweeps, step by
step: the backend of the one is that of the other but for what has expired (`Backend.Forgot`).
-/

namespace AccessControl

/-- Of these values, those that stand for one token agree on its expiry. So do all values that were
issued under a key, because no identifier is drawn twice. -/
def SignedCodec.Consistent (k : SignedCodec) (values : List String) : Prop :=
  ∀ x ∈ values, ∀ y ∈ values, ∀ v w, k.decode x = .ok v → k.decode y = .ok w →
    v.details.id = w.details.id → v.details.expiresAt = w.details.expiresAt

/-- Every entry on the list is there for one of these values. -/
def SignedCodec.Accounts (k : SignedCodec) (values : List String) (l : RevocationList) : Prop :=
  ∀ id t, l.expiry? id = some t →
    ∃ x ∈ values, ∃ v, k.decode x = .ok v ∧ v.details.id = id ∧ v.details.expiresAt = t

theorem SignedCodec.Accounts.add {k : SignedCodec} {values : List String} {l : RevocationList}
    (h : k.Accounts values l) (hconsistent : k.Consistent values) {x : String} (hx : x ∈ values)
    {v : Verified} (hv : k.decode x = .ok v) :
    k.Accounts values (l.add v.details.id v.details.expiresAt).2 := by
  intro id t ht
  rw [RevocationList.expiry?_add] at ht
  split at ht
  next he =>
    refine ⟨x, hx, v, hv, he.symm, ?_⟩
    cases hu : l.expiry? v.details.id with
    | none =>
      rw [hu] at ht
      exact Option.some.inj ht
    | some u =>
      obtain ⟨y, hy, w, hw, hid, hexpires⟩ := h _ _ hu
      have hsame : v.details.expiresAt = u :=
        (hconsistent x hx y hy v w hv hw hid.symm).trans hexpires
      rw [hu, hsame] at ht
      rw [hsame, ← Option.some.inj ht]
      exact (Instant.latest_self u).symm
  · exact h id t ht

namespace TokenManager

open Backend

variable {m : TokenManager} {b b' : Backend} {values : List String} {value : String}

/-- What is told with sweeps, next to what is told without. -/
inductive Alike (m : TokenManager) : Outcome TokenReply → Outcome TokenReply → Prop
  | same (o : Outcome TokenReply) : Alike m o o
  | forgotten (hstore : m.hasStore = true) :
    Alike m (.done (.verdict (.ok (.error .expired)))) (.done (.verdict (.ok (.error .notFound))))
  | unexchanged (hstore : m.hasStore = true) :
    Alike m (.done (.pair (.error (.rejected .expired))))
      (.done (.pair (.error (.rejected .notFound))))

/-- The list of revocations accounts for itself: by the records, or by the values that were
presented. -/
structure Accounted (m : TokenManager) (values : List String) (b : Backend) : Prop where
  stored : m.backing = .stored → m.Booked b
  signed : ∀ k, m.backing = .signed k → k.Accounts values b.revocations

theorem Accounted.dated (h : m.Accounted values b)
    (hconsistent : ∀ k, m.backing = .signed k → k.Consistent values) (hvalue : value ∈ values) :
    m.Dated b value := by
  intro v marked t hfound ht
  cases hbacking : m.backing with
  | signed k =>
    obtain ⟨x, hx, w, hw, hid, rfl⟩ := h.signed k hbacking _ _ ht
    exact hconsistent k hbacking x hx value hvalue w v hw (decode_of_found hbacking hfound) hid
  | stored =>
    obtain ⟨r, hr, rfl, -⟩ := found_stored hbacking hfound
    rw [(h.stored hbacking).listed, hr, Option.bind_some] at ht
    exact (TokenRecord.revokedUntil?_eq_some.1 ht).2.symm

/-! ### What requests leave -/

/-- An exchange adds the value that was exchanged, if anything. -/
theorem Rotates.accounts {k : SignedCodec} {o : Outcome (Except TokenError TokenPair)}
    (hrotates : m.Rotates value b o b') (hsigned : m.backing = .signed k)
    (h : k.Accounts values b.revocations) (hconsistent : k.Consistent values)
    (hvalue : value ∈ values) : k.Accounts values b'.revocations := by
  cases hrotates with
  | halfway _ _ haccess =>
    rw [haccess.after, keep_revocations]
    exact h
  | rotated hv _ haccess hrefresh =>
    rw [retired, hrefresh.after, keep_revocations, haccess.after, keep_revocations]
    exact h.add hconsistent hvalue (decode_of_found hsigned (verdict_ok hv).1)
  | _ => exact h

theorem Revokes.accounts {k : SignedCodec} {o : Outcome (Except TokenError Unit)}
    (hrevokes : m.Revokes value b o b') (hsigned : m.backing = .signed k)
    (h : k.Accounts values b.revocations) (hconsistent : k.Consistent values)
    (hvalue : value ∈ values) : k.Accounts values b'.revocations := by
  cases hrevokes with
  | signed hsigned' hv =>
    rw [hsigned] at hsigned'
    cases hsigned'
    exact h.add hconsistent hvalue hv
  | stored hstored =>
    rw [hsigned] at hstored
    cases hstored
  | _ => exact h

theorem accounts_serve {k : SignedCodec} (hsigned : m.backing = .signed k)
    (h : k.Accounts values b.revocations) (hconsistent : k.Consistent values) {q : TokenRequest}
    (hsweep : q ≠ .sweep) (hvalue : ∀ x, (TokenStep.request q).value? = some x → x ∈ values) :
    k.Accounts values (b.serve m q).2.revocations := by
  unfold Backend.serve
  cases q with
  | generate c kind =>
    simp only [TokenManager.serve, run_reply, generate]
    split
    · rcases exec_issue m c kind b with ⟨t, b', he, hissues⟩ | ⟨he, -⟩ | ⟨he, -⟩ <;> rw [he]
      · rw [hissues.after, keep_revocations]
        exact h
      · exact h
      · exact h
    · exact h
  | verify value =>
    simp only [TokenManager.serve, run_reply, exec_verify]
    exact h
  | refresh value =>
    simp only [TokenManager.serve, run_reply]
    exact (exec_refresh m value b).accounts hsigned h hconsistent (hvalue value rfl)
  | revoke value =>
    simp only [TokenManager.serve, run_reply]
    exact (exec_revoke m value b).accounts hsigned h hconsistent (hvalue value rfl)
  | revokeAll tenant subject =>
    simp only [TokenManager.serve, run_reply, revokeAll, hsigned]
    exact h
  | sweep => exact absurd rfl hsweep

theorem Accounted.serve (h : m.Accounted values b)
    (hconsistent : ∀ k, m.backing = .signed k → k.Consistent values) {q : TokenRequest}
    (hsweep : q ≠ .sweep) (hvalue : ∀ x, (TokenStep.request q).value? = some x → x ∈ values)
    (hfresh : m.backing = .stored → b.supply.Fresh m.primitives (b.serve m q).2.drawn) :
    m.Accounted values (b.serve m q).2 where
  stored hstored := (h.stored hstored).step hstored (.request q) (hfresh hstored)
  signed k hsigned :=
    accounts_serve hsigned (h.signed k hsigned) (hconsistent k hsigned) hsweep hvalue

theorem InStep.reply {α : Type} {x : Operation α} (h : InStep x b b')
    (f : Except TokenError α → TokenReply) :
    m.Alike ((b.exec x).1.map f) ((b'.exec x).1.map f) ∧ (b.exec x).2.Forgot (b'.exec x).2 := by
  obtain ⟨o, b₁, b₁', hb, hb', h₁⟩ := h
  rw [hb, hb']
  exact ⟨.same _, h₁⟩

/-- A request that is no sweep is answered alike, and leaves the backends alike. -/
theorem serve_alike (h : b.Forgot b') (ha : m.Accounted values b)
    (hconsistent : ∀ k, m.backing = .signed k → k.Consistent values) {q : TokenRequest}
    (hsweep : q ≠ .sweep) (hvalue : ∀ x, (TokenStep.request q).value? = some x → x ∈ values) :
    m.Alike (b.serve m q).1 (b'.serve m q).1 ∧ (b.serve m q).2.Forgot (b'.serve m q).2 := by
  unfold Backend.serve
  cases q with
  | generate c kind =>
    simp only [TokenManager.serve, run_reply, generate]
    split
    · exact (inStep_issue h c kind).reply _
    · exact (inStep_of_eq h rfl rfl : InStep (throw _) b b').reply _
  | verify value =>
    simp only [TokenManager.serve, run_reply, exec_verify]
    rcases verdict_forgot h (ha.dated hconsistent (hvalue value rfl)) with he | ⟨hstore, he, he'⟩
    · rw [he]
      exact ⟨.same _, h⟩
    · rw [he, he']
      exact ⟨.forgotten hstore, h⟩
  | refresh value =>
    simp only [TokenManager.serve, run_reply]
    have hdated := ha.dated hconsistent (hvalue value rfl)
    rcases verdict_forgot h hdated with he | ⟨hstore, he, he'⟩
    · exact (inStep_refresh h hdated he).reply _
    · rw [exec_refresh_rejected he, exec_refresh_rejected he']
      exact ⟨.unexchanged hstore, h⟩
  | revoke value =>
    simp only [TokenManager.serve, run_reply]
    exact (inStep_revoke h value).reply _
  | revokeAll tenant subject =>
    simp only [TokenManager.serve, run_reply]
    exact (inStep_revokeAll h ha.stored tenant subject).reply _
  | sweep => exact absurd rfl hsweep

/-! ### Scripts -/

theorem replies_alike (h : b.Forgot b') (ha : m.Accounted values b)
    (hconsistent : ∀ k, m.backing = .signed k → k.Consistent values) {script : List TokenStep}
    (hforward : Instant.Forward TokenStep.time b.clock script)
    (hvalues : ∀ s ∈ script, ∀ x, s.value? = some x → x ∈ values)
    (hfresh : m.backing = .stored → b.supply.Fresh m.primitives
      (b.after m (script.filter fun s => !s.isSweep)).drawn) :
    List.Forall₂ m.Alike (b.replies m (script.filter fun s => !s.isSweep))
      (b'.replies m script) := by
  induction script generalizing b b' with
  | nil => exact .nil
  | cons s script ih =>
    obtain ⟨hle, hforward⟩ := hforward
    obtain ⟨hvalue, hlater⟩ := List.forall_mem_cons.1 hvalues
    cases s with
    | clock t =>
      exact ih (h.setClock hle) { ha with stored := fun hs => { ha.stored hs with } } hforward
        hlater hfresh
    | request q =>
      by_cases hsweep : q = .sweep
      · subst hsweep
        exact ih (h.sweep m) ha hforward hlater hfresh
      · have hno : (TokenStep.request q).isSweep = false := by
          cases q <;> first | rfl | exact absurd rfl hsweep
        obtain ⟨halike, hforgot⟩ := serve_alike h ha hconsistent hsweep hvalue
        rw [List.filter_cons_of_pos (by rw [hno]; rfl)] at hfresh ⊢
        rw [replies, replies, if_neg (by simp [hno]), if_neg (by simp [hno])]
        have hstep : (b.step m (.request q)).supply = b.supply := supply_step b (.request q)
        have hkept : m.Accounted values (b.step m (.request q)) :=
          ha.serve hconsistent hsweep hvalue fun hs => (hfresh hs).mono (drawn_le_after ..)
        refine .cons halike (ih hforgot hkept ?_ hlater fun hs => ?_)
        · rw [clock_step]
          exact hforward
        · rw [hstep]
          exact hfresh hs

/-- With sweeps in between, the requests of a script are answered as they are without, except that an
expired opaque token may be unknown. The clock must not go backwards, the opaque values that are drawn
must name different records, and signed values that stand for one token must agree on its expiry. -/
theorem sweeps_unnoticed {start : Instant} {supply : Supply} {script : List TokenStep}
    (hforward : Instant.Forward TokenStep.time start script)
    (hconsistent : ∀ k, m.backing = .signed k → k.Consistent (script.filterMap TokenStep.value?))
    (hfresh : m.backing = .stored → supply.Fresh m.primitives
      ((Backend.new start supply).after m (script.filter fun s => !s.isSweep)).drawn) :
    List.Forall₂ m.Alike
      ((Backend.new start supply).replies m (script.filter fun s => !s.isSweep))
      ((Backend.new start supply).replies m script) := by
  have haccounted : m.Accounted (script.filterMap TokenStep.value?) (Backend.new start supply) :=
    ⟨fun _ => booked_new m start supply, fun _ _ _ _ h => by cases h⟩
  exact replies_alike (.refl _) haccounted hconsistent hforward
    (fun s hs x hx => List.mem_filterMap.2 ⟨s, hs, hx⟩) hfresh

theorem serve_revoke_of_decode {k : SignedCodec} (hsigned : m.backing = .signed k) {b : Backend}
    {value : String} {v : Verified} (hv : k.decode value = .ok v)
    (hlive : b.clock < v.details.expiresAt) :
    b.serve m (.revoke value) = (.done (.revoked (.ok ())),
      { b with revocations := (b.revocations.add v.details.id v.details.expiresAt).2 }) := by
  have hexec : b.exec (m.revoke value) = (.done (.ok ()),
      { b with revocations := (b.revocations.add v.details.id v.details.expiresAt).2 }) := by
    rw [revoke, exec_bind, exec_now]
    simp only [hsigned, hv, if_neg (Instant.not_le.2 hlive)]
    rfl
  rw [Backend.serve, TokenManager.serve, run_reply, hexec]
  rfl

end TokenManager

namespace Sample

variable (p : Primitives)

/-- A refresh token is issued, its week passes, and it is presented before and after a sweep. -/
def sweepScript : List TokenStep :=
  [.request (.generate claims .refresh), .clock ⟨1700604800, 0⟩,
    .request (.verify (token p .refresh).value), .request .sweep,
    .request (.verify (token p .refresh).value)]

/-- The script without its sweep. -/
def unsweptScript : List TokenStep := (sweepScript p).filter fun s => !s.isSweep

theorem forward_sweepScript :
    Instant.Forward TokenStep.time ⟨1700000000, 0⟩ (sweepScript p) := by
  have hweek : (⟨1700000000, 0⟩ : Instant) ≤ ⟨1700604800, 0⟩ := by decide
  exact ⟨Instant.le_refl _, hweek, Instant.le_refl _, Instant.le_refl _, Instant.le_refl _, trivial⟩

theorem drawn_unsweptScript : (empty.after (manager p) (unsweptScript p)).drawn = 1 := by
  have hverify (b : Backend) :
      b.step (manager p) (.request (.verify (token p .refresh).value)) = b :=
    congrArg Prod.snd (TokenManager.serve_verify (manager p) b _)
  have hscript : unsweptScript p = [.request (.generate claims .refresh), .clock ⟨1700604800, 0⟩,
      .request (.verify (token p .refresh).value), .request (.verify (token p .refresh).value)] := rfl
  rw [hscript, Backend.after_cons, Backend.after_cons, Backend.after_cons, Backend.after_cons,
    Backend.after_nil, hverify, hverify]
  rfl

end Sample

open Sample in
theorem TokenManager.sweep_unnoticed :
    List.Forall₂ (manager .standard).Alike
      (empty.replies (manager .standard) (unsweptScript .standard))
      (empty.replies (manager .standard) (sweepScript .standard)) := by
  have hfresh : Supply.counting.Fresh .standard
      (empty.after (manager .standard) (unsweptScript .standard)).drawn := by
    rw [drawn_unsweptScript]
    exact fresh_four.mono (by decide)
  exact sweeps_unnoticed (forward_sweepScript .standard) (fun k h => by cases h) fun _ => hfresh

namespace Sample

/-! ### Two values for one identifier -/

/-- What two signed values say of one token, except for its expiry. -/
def twinDetails (t : Instant) : TokenDetails :=
  ⟨⟨"0190a6b8-7c00-7000-8000-000000000001"⟩, .access, ⟨1700000000, 0⟩, t⟩

def twin (t : Instant) : String := codec.encode claims (twinDetails t)

theorem decode_twin {t : Instant} (hmin : 0 ≤ t.seconds) (hmax : t.seconds ≤ Instant.maxSeconds)
    (hwhole : t.nanos = 0) : codec.decode (twin t) = .ok ⟨claims, twinDetails t⟩ := by
  have hplain : claims.Plain := ⟨by decide, by decide, by decide, by decide⟩
  have hnamed : Text.isBlank "0190a6b8-7c00-7000-8000-000000000001" = false := by decide
  have hread : Instant.minSeconds ≤ 1700000000 ∧ 1700000000 ≤ Instant.maxSeconds := by decide
  have hwritable : (twinDetails t).Writable := ⟨hnamed, hread, ⟨hmin, hmax⟩, hwhole⟩
  rw [twin, SignedCodec.decode_encode hplain hwritable]
  rfl

/-- The value that runs for ten seconds is revoked, and after a sweep the one that runs for a quarter
of an hour is presented. -/
def twinScript : List TokenStep :=
  [.request (.revoke (twin ⟨1700000010, 0⟩)), .clock ⟨1700000020, 0⟩, .request .sweep,
    .request (.verify (twin ⟨1700000900, 0⟩))]

/-- The backend after the revocation, twenty seconds on. -/
def oneRevoked : Backend :=
  { empty with
    clock := ⟨1700000020, 0⟩
    revocations := (empty.revocations.add (twinDetails ⟨1700000010, 0⟩).id ⟨1700000010, 0⟩).2 }

theorem serve_revoke_twin : empty.serve signedManager (.revoke (twin ⟨1700000010, 0⟩)) =
    (.done (.revoked (.ok ())), { oneRevoked with clock := ⟨1700000000, 0⟩ }) :=
  TokenManager.serve_revoke_of_decode (m := signedManager) rfl
    (decode_twin (by decide) (by decide) rfl) (by decide)

theorem serve_verify_twin {b : Backend} (hb : b.clock = ⟨1700000020, 0⟩) :
    b.serve signedManager (.verify (twin ⟨1700000900, 0⟩)) = (.done (.verdict (.ok
      (if b.revocations.contains (twinDetails ⟨1700000900, 0⟩).id then .error .revoked
        else .ok ⟨claims, twinDetails ⟨1700000900, 0⟩⟩))), b) := by
  have hlive : ¬(⟨1700000900, 0⟩ : Instant) ≤ ⟨1700000020, 0⟩ := by decide
  have hscope : claims.hasScope = true := by decide
  rw [TokenManager.serve_verify, TokenManager.verdict, TokenManager.found_of_decode
    (m := signedManager) rfl (decode_twin (by decide) (by decide) rfl)]
  simp only [hb, twinDetails, if_neg hlive, hscope, Bool.false_or, if_true]
  rfl

/-- Without the sweep the second value counts as revoked, with it as valid. -/
theorem twin_outlives_sweep :
    Instant.Forward TokenStep.time ⟨1700000000, 0⟩ twinScript ∧
      empty.replies signedManager (twinScript.filter fun s => !s.isSweep) =
        [.done (.revoked (.ok ())), .done (.verdict (.ok (.error .revoked)))] ∧
      empty.replies signedManager twinScript = [.done (.revoked (.ok ())),
        .done (.verdict (.ok (.ok ⟨claims, twinDetails ⟨1700000900, 0⟩⟩)))] := by
  refine ⟨?_, ?_, ?_⟩
  · have hlater : (⟨1700000000, 0⟩ : Instant) ≤ ⟨1700000020, 0⟩ := by decide
    exact ⟨Instant.le_refl _, hlater, Instant.le_refl _, Instant.le_refl _, trivial⟩
  · have hscript : (twinScript.filter fun s => !s.isSweep) =
        [.request (.revoke (twin ⟨1700000010, 0⟩)), .clock ⟨1700000020, 0⟩,
          .request (.verify (twin ⟨1700000900, 0⟩))] := rfl
    have hreplies : empty.replies signedManager (twinScript.filter fun s => !s.isSweep) =
        [(empty.serve signedManager (.revoke (twin ⟨1700000010, 0⟩))).1,
          (oneRevoked.serve signedManager (.verify (twin ⟨1700000900, 0⟩))).1] := by
      rw [hscript, Backend.replies, if_neg (by decide), Backend.replies, Backend.step,
        serve_revoke_twin]
      rfl
    rw [hreplies, serve_revoke_twin, serve_verify_twin rfl]
    rfl
  · obtain ⟨report, hsweep⟩ := TokenManager.serve_sweep signedManager oneRevoked
    have hreplies : empty.replies signedManager twinScript =
        [(empty.serve signedManager (.revoke (twin ⟨1700000010, 0⟩))).1,
          ((oneRevoked.serve signedManager .sweep).2.serve signedManager
            (.verify (twin ⟨1700000900, 0⟩))).1] := by
      rw [twinScript, Backend.replies, if_neg (by decide), Backend.replies, Backend.step,
        serve_revoke_twin]
      rfl
    rw [hreplies, serve_revoke_twin, hsweep, serve_verify_twin rfl]
    rfl

end Sample

end AccessControl
