import AccessControl.Proofs.Token.Rotation
import AccessControl.Proofs.Token.Withdrawal

/-!
# Reports that fail

A rotation reports its token to the revocation list, again and again while that fails. A report that
fails may have been recorded all the same (`Delivery.unconfirmed`), and then the next one finds the
token on the list. What is known after a number of reports is which of them were heard and whether one
was recorded (`run_retire_delivering`); all else that a rotation asks is answered as if no report had
failed.
-/

namespace AccessControl

/-- What becomes of a report to the revocation list. -/
inductive Delivery
  | heard
  /-- It fails without effect. -/
  | failed (f : CallFault)
  /-- It is recorded, and fails nevertheless. -/
  | unconfirmed (f : CallFault)

namespace Delivery

def IsHeard : Delivery → Prop
  | heard => True
  | failed _ | unconfirmed _ => False

def IsRecorded : Delivery → Prop
  | heard | unconfirmed _ => True
  | failed _ => False

theorem IsHeard.isRecorded {d : Delivery} (h : d.IsHeard) : d.IsRecorded := by
  cases d with
  | heard => trivial
  | failed f => exact h
  | unconfirmed f => trivial

/-- None of the reports from `n` up to `n'` is heard. -/
def Unheard (plan : Nat → Delivery) (n n' : Nat) : Prop :=
  ∀ i, n ≤ i → i < n' → ¬(plan i).IsHeard

/-- One of the reports from `n` up to `n'` is recorded. -/
def Recorded (plan : Nat → Delivery) (n n' : Nat) : Prop :=
  ∃ i, n ≤ i ∧ i < n' ∧ (plan i).IsRecorded

/-- Of the first `n` reports one is heard, and before the first that is heard one was recorded. -/
def Repeats (plan : Nat → Delivery) (n : Nat) : Prop :=
  ∃ j < n, (plan j).IsHeard ∧ Unheard plan 0 j ∧ Recorded plan 0 j

variable {plan : Nat → Delivery} {n n' : Nat}

theorem unheard_self (plan : Nat → Delivery) (n : Nat) : Unheard plan n n :=
  fun _ hi hlt => absurd hlt (Nat.not_lt.2 hi)

theorem not_recorded_self (plan : Nat → Delivery) (n : Nat) : ¬Recorded plan n n := by
  rintro ⟨i, hi, hlt, -⟩
  omega

theorem Unheard.cons (h : Unheard plan (n + 1) n') (hn : ¬(plan n).IsHeard) :
    Unheard plan n n' := by
  intro i hi hlt
  rcases Nat.eq_or_lt_of_le hi with rfl | hi
  · exact hn
  · exact h i hi hlt

theorem recorded_cons (hlt : n < n') :
    Recorded plan n n' ↔ (plan n).IsRecorded ∨ Recorded plan (n + 1) n' := by
  constructor
  · rintro ⟨i, hi, hin, hrecorded⟩
    rcases Nat.eq_or_lt_of_le hi with rfl | hi
    · exact .inl hrecorded
    · exact .inr ⟨i, hi, hin, hrecorded⟩
  · rintro (hrecorded | ⟨i, hi, hin, hrecorded⟩)
    · exact ⟨n, Nat.le_refl n, hlt, hrecorded⟩
    · exact ⟨i, Nat.le_of_succ_le hi, hin, hrecorded⟩

theorem recorded_one : Recorded plan n (n + 1) ↔ (plan n).IsRecorded := by
  rw [recorded_cons (Nat.lt_succ_self n), or_iff_left (not_recorded_self plan (n + 1))]

/-- There is one first report that is heard. -/
theorem Unheard.eq {j j' : Nat} (h : Unheard plan 0 j) (hj : (plan j).IsHeard)
    (h' : Unheard plan 0 j') (hj' : (plan j').IsHeard) : j = j' := by
  rcases Nat.lt_trichotomy j j' with hlt | he | hlt
  · exact absurd hj (h' j (Nat.zero_le j) hlt)
  · exact he
  · exact absurd hj' (h j' (Nat.zero_le j') hlt)

end Delivery

namespace Backend

/-- Answers truly, except that reports to the revocation list are delivered by plan; they are
counted. -/
def delivering (plan : Nat → Delivery) : Procedure.Responder (Backend × Nat)
  | .addRevocation id t, _, (b, n) => match plan n with
    | .heard => (some (b.answer (.addRevocation id t)).1, ((b.answer (.addRevocation id t)).2, n + 1))
    | .failed f => (some (.error f), (b, n + 1))
    | .unconfirmed f => (some (.error f), ((b.answer (.addRevocation id t)).2, n + 1))
  | q, _, (b, n) => (some (b.answer q).1, ((b.answer q).2, n))

variable {plan : Nat → Delivery} {n : Nat} {b b' : Backend}

theorem delivering_of_ne {q : Ask} (hq : ∀ id t, q ≠ .addRevocation id t) (bound : Bool) :
    delivering plan q bound (b, n) = (some (b.answer q).1, ((b.answer q).2, n)) := by
  cases q with
  | addRevocation id t => exact absurd rfl (hq id t)
  | _ => rfl

end Backend

namespace Operation

variable {α β σ : Type} {respond : Procedure.Responder σ} {s s' : σ} {a : α}

theorem run_bind_ok {x : Operation α} {f : α → Operation β}
    (h : x.run.run respond s = (.done (.ok a), s')) :
    (x >>= f).run.run respond s = (f a).run.run respond s' := by
  rw [run_bind, h]

theorem run_lift_bind {p : Procedure α} {f : α → Operation β}
    (h : p.run respond s = (.done a, s')) :
    ((liftM p : Operation α) >>= f).run.run respond s = (f a).run.run respond s' := by
  refine run_bind_ok ?_
  show Procedure.run respond (Procedure.bind p _) s = _
  rw [Procedure.run_bind, h]
  rfl

theorem run_tryCatch_ok {x : Operation α} {f : TokenError → Operation α}
    (h : x.run.run respond s = (.done (.ok a), s')) :
    (tryCatch x f).run.run respond s = (.done (.ok a), s') := by
  show Procedure.run respond (Procedure.bind x.run _) s = _
  rw [Procedure.run_bind, h]
  rfl

end Operation

namespace TokenManager

open Backend Delivery Procedure

variable {m : TokenManager} {d : TokenDetails} {plan : Nat → Delivery} {n : Nat} {b b' b'' : Backend}
  {p q : Prop}

/-- Nothing has happened but that a token may have been put on the revocation list. -/
structure Reported (m : TokenManager) (id : TokenId) (b b' : Backend) (recorded : Prop) : Prop where
  changes : m.Changes b b'
  only : b' = { b with revocations := b'.revocations }
  listed : ∀ id', b'.revocations.contains id' = true ↔
    b.revocations.contains id' = true ∨ recorded ∧ id' = id

theorem Reported.clock_eq {id : TokenId} (h : m.Reported id b b' p) : b'.clock = b.clock := by
  rw [h.only]

theorem Reported.drawn_eq {id : TokenId} (h : m.Reported id b b' p) : b'.drawn = b.drawn := by
  rw [h.only]

theorem Reported.store_eq {id : TokenId} (h : m.Reported id b b' p) : b'.store = b.store := by
  rw [h.only]

theorem Reported.refl (m : TokenManager) (id : TokenId) (b : Backend) : m.Reported id b b False :=
  ⟨.refl, rfl, fun id' => by simp⟩

theorem reported_add (m : TokenManager) (id : TokenId) (t : Instant) (b : Backend) :
    m.Reported id b { b with revocations := (b.revocations.add id t).2 } True :=
  ⟨.single (.revoke b id t), rfl, fun id' => by simp [RevocationList.contains_add, or_comm]⟩

theorem Reported.trans {id : TokenId} (h : m.Reported id b b' p) (h' : m.Reported id b' b'' q) :
    m.Reported id b b'' (p ∨ q) where
  changes := h.changes.trans h'.changes
  only := by
    have hb := h'.only
    rw [h.only] at hb
    exact hb
  listed id' := by
    rw [h'.listed, h.listed, or_and_right, or_assoc]

theorem Reported.congr {id : TokenId} (h : m.Reported id b b' p) (hpq : p ↔ q) :
    m.Reported id b b' q := by
  rwa [← propext hpq]

/-- How the reports of a token end that are made from the `n`-th on, and how many have then been made:
one is heard, or all of them fail. -/
inductive Retires (plan : Nat → Delivery) (id : TokenId) (retries : Nat) (b : Backend) (n : Nat) :
    Except CallFault Bool → Nat → Prop
  | heard {j : Nat} {new : Bool} (hle : n ≤ j) (hlast : j ≤ n + retries) (hbefore : Unheard plan n j)
    (hj : (plan j).IsHeard)
    (hnew : new = true ↔ b.revocations.contains id = false ∧ ¬Recorded plan n j) :
    Retires plan id retries b n (.ok new) (j + 1)
  | failed {f : CallFault} (hall : Unheard plan n (n + retries + 1)) :
    Retires plan id retries b n (.error f) (n + retries + 1)

theorem Retires.here {id : TokenId} (hn : (plan n).IsHeard) (retries : Nat) (b : Backend) :
    Retires plan id retries b n (.ok (!b.revocations.contains id)) (n + 1) :=
  .heard (Nat.le_refl n) (Nat.le_add_right ..) (unheard_self plan n) hn
    (by simp [not_recorded_self plan n])

/-- After a report that failed the next ones go on. -/
theorem Retires.later {id : TokenId} {retries n' : Nat} {x : Except CallFault Bool}
    (h : Retires plan id retries b' (n + 1) x n') (hn : ¬(plan n).IsHeard)
    (hreported : m.Reported id b b' (plan n).IsRecorded) :
    Retires plan id (retries + 1) b n x n' := by
  cases h with
  | @heard j new hle hlast hbefore hj hnew =>
    refine .heard (Nat.le_of_succ_le hle) (by omega) (hbefore.cons hn) hj ?_
    have hlisted := hreported.listed id
    rw [hnew, recorded_cons hle, not_or, ← Bool.not_eq_true, ← Bool.not_eq_true, hlisted]
    simp only [and_true, not_or, and_assoc]
  | failed hall =>
    have he : n + 1 + retries + 1 = n + (retries + 1) + 1 := by omega
    rw [he] at hall ⊢
    exact .failed (hall.cons hn)

theorem Retires.lt {id : TokenId} {retries n' : Nat} {x : Except CallFault Bool}
    (h : Retires plan id retries b n x n') : n < n' := by
  cases h with
  | heard hle => exact Nat.lt_succ_of_le hle
  | failed => omega

/-- One report. -/
theorem run_report (m : TokenManager) (d : TokenDetails) (plan : Nat → Delivery) (b : Backend)
    (n : Nat) :
    ∃ x b', (call (.addRevocation d.id d.expiresAt)).run (delivering plan) (b, n) =
        (.done x, (b', n + 1)) ∧ m.Reported d.id b b' (plan n).IsRecorded ∧
      ((plan n).IsHeard ∧ x = .ok (!b.revocations.contains d.id) ∨
        ¬(plan n).IsHeard ∧ ∃ f, x = .error f) := by
  have hadd := reported_add m d.id d.expiresAt b
  rw [call, Procedure.run, delivering]
  cases plan n with
  | heard =>
    refine ⟨_, _, rfl, hadd, .inl ⟨trivial, ?_⟩⟩
    show Except.ok (b.revocations.add d.id d.expiresAt).1 = _
    rw [RevocationList.add_fst]
  | failed f => exact ⟨_, _, rfl, .refl m d.id b, .inr ⟨id, f, rfl⟩⟩
  | unconfirmed f => exact ⟨_, _, rfl, hadd, .inr ⟨id, f, rfl⟩⟩

theorem run_retire_delivering (m : TokenManager) (d : TokenDetails) (plan : Nat → Delivery)
    (retries : Nat) (b : Backend) (n : Nat) :
    ∃ x b' n', (retire d retries).run (delivering plan) (b, n) = (.done x, (b', n')) ∧
      Retires plan d.id retries b n x n' ∧ m.Reported d.id b b' (Recorded plan n n') := by
  induction retries generalizing b n with
  | zero =>
    obtain ⟨x, b', hrun, hreported, hx⟩ := run_report m d plan b n
    refine ⟨x, b', n + 1, hrun, ?_, hreported.congr recorded_one.symm⟩
    rcases hx with ⟨hheard, rfl⟩ | ⟨hfailed, f, rfl⟩
    · exact .here hheard 0 b
    · exact .failed ((unheard_self plan (n + 1)).cons hfailed)
  | succ retries ih =>
    obtain ⟨x, b₁, hrun, hreported, hx⟩ := run_report m d plan b n
    rw [retire, bind_eq, Procedure.run_bind, hrun]
    rcases hx with ⟨hheard, rfl⟩ | ⟨hfailed, f, rfl⟩
    · exact ⟨_, b₁, n + 1, rfl, .here hheard _ b, hreported.congr recorded_one.symm⟩
    · obtain ⟨x, b', n', hrest, hretires, hreported'⟩ := ih b₁ (n + 1)
      refine ⟨x, b', n', hrest, hretires.later hfailed hreported, ?_⟩
      exact (hreported.trans hreported').congr (recorded_cons (by have := hretires.lt; omega)).symm

/-! ### Rotations -/

/-- A procedure that reports nothing does not notice the plan. -/
theorem run_delivering {α : Type} {x : Procedure α} {ends : List Exchange → α → Prop}
    {past : List Exchange} (hx : x.Follows (m.conduct .sweep) ends past) :
    x.run (delivering plan) (b, n) = ((b.run x).1, ((b.run x).2, n)) := by
  induction x generalizing past b with
  | done a => rfl
  | abort => rfl
  | ask q bound next ih =>
    have hq : ∀ id t, q ≠ .addRevocation id t := by
      rintro id t rfl
      exact hx.1
    have hexpect : (m.conduct .sweep).expect q (b.answer q).1 := by
      cases q with
      | findRecord id => exact fun r hr => TokenStore.id_of_find? (Except.ok.inj hr)
      | _ => trivial
    rw [Procedure.run, delivering_of_ne hq]
    exact ih _ (hx.2 _ hexpect)

theorem run_verify_delivering (m : TokenManager) (value : String) (plan : Nat → Delivery)
    (b : Backend) (n : Nat) :
    (m.verify value).run.run (delivering plan) (b, n) =
      (.done (.ok (m.verdict b value)), (b, n)) := by
  have hrun := exec_verify m b value
  rw [exec] at hrun
  rw [run_delivering (consults_verify (consults_conduct m .sweep value) []), hrun]

theorem run_issue_delivering {c : Claims} {kind : TokenKind} {t : Token}
    (h : b.exec (m.issue c kind) = (.done (.ok t), b')) :
    (m.issue c kind).run.run (delivering plan) (b, n) = (.done (.ok t), (b', n)) := by
  rw [exec] at h
  rw [run_delivering (asks_issue m .sweep c kind []), h]

theorem run_markRevoked_delivering (m : TokenManager) (v : Verified) (plan : Nat → Delivery)
    (b : Backend) (n : Nat) :
    (m.markRevoked v.claims v.details.id).run (delivering plan) (b, n) =
      (.done (), ({ b with store := m.marked b v }, n)) := by
  unfold markRevoked marked
  cases m.backing with
  | signed k => rfl
  | stored => cases v.claims.subject? <;> rfl

/-- The store after tokens were given up. -/
def discarded (m : TokenManager) (c : Claims) (tokens : List Token) (st : TokenStore) : TokenStore :=
  match m.backing, c.subject? with
  | .stored, some s => tokens.foldl (fun st t => (st.delete s t.id).2) st
  | _, _ => st

theorem run_discard_delivering (m : TokenManager) (c : Claims) (tokens : List Token)
    (plan : Nat → Delivery) (b : Backend) (n : Nat) :
    (m.discard c tokens).run (delivering plan) (b, n) =
      (.done (), ({ b with store := m.discarded c tokens b.store }, n)) := by
  unfold discard discarded
  cases m.backing with
  | signed k => rfl
  | stored =>
    cases c.subject? with
    | none => rfl
    | some s =>
      induction tokens generalizing b with
      | nil => rfl
      | cons t tokens ih => exact ih _

/-- How often a rotation reports its token at most. -/
def attempts (m : TokenManager) : Nat := max 1 m.settings.revokeAttempts

/-- How the exchange of a verified token ends once its pair was issued, and how many reports have then
been made: its own report was the first one, or was not the first one, or none was heard. -/
inductive Settles (m : TokenManager) (v : Verified) (plan : Nat → Delivery) (pair : TokenPair)
    (b : Backend) : Except TokenError TokenPair → Backend → Nat → Prop
  | won {j : Nat} {b' : Backend} (hj : j < m.attempts) (hbefore : Unheard plan 0 j)
    (hheard : (plan j).IsHeard) (hfirst : ¬Recorded plan 0 j)
    (hreported : m.Reported v.details.id b b' True) :
    Settles m v plan pair b (.ok pair) { b' with store := m.marked b' v } (j + 1)
  | lost {j : Nat} {b' : Backend} (hj : j < m.attempts) (hbefore : Unheard plan 0 j)
    (hheard : (plan j).IsHeard) (hrecorded : Recorded plan 0 j)
    (hreported : m.Reported v.details.id b b' True) :
    Settles m v plan pair b (.error (.rejected .revoked))
      { b' with store := m.discarded v.claims [pair.access, pair.refresh] b'.store } (j + 1)
  | unheard {b' : Backend} (hall : Unheard plan 0 m.attempts)
    (hreported : m.Reported v.details.id b b' (Recorded plan 0 m.attempts)) :
    Settles m v plan pair b (.ok pair) b' m.attempts

theorem run_exchange_delivering {v : Verified} {access refresh : Token} {b₁ b₂ : Backend}
    (hkind : v.details.kind = .refresh)
    (haccess : b.exec (m.issue v.claims .access) = (.done (.ok access), b₁))
    (hrefresh : b₁.exec (m.issue v.claims .refresh) = (.done (.ok refresh), b₂))
    (hunlisted : b₂.revocations.contains v.details.id = false) (plan : Nat → Delivery) :
    ∃ r b' n', (m.exchangeVerified v).run.run (delivering plan) (b, 0) = (.done r, (b', n')) ∧
      m.Settles v plan ⟨access, refresh⟩ b₂ r b' n' := by
  obtain ⟨x, b₃, n', hretire, hretires, hreported⟩ :=
    run_retire_delivering m v.details plan (m.settings.revokeAttempts - 1) b₂ 0
  have hattempts : 0 + (m.settings.revokeAttempts - 1) + 1 = m.attempts := by
    unfold attempts
    omega
  unfold exchangeVerified
  rw [if_pos hkind, Operation.run_bind_ok (run_issue_delivering haccess),
    Operation.run_bind_ok (Operation.run_tryCatch_ok (run_issue_delivering hrefresh)),
    Operation.run_lift_bind hretire]
  cases hretires with
  | @heard j new hle hlast hbefore hj hnew =>
    have hj' : j < m.attempts := by omega
    have hreported := hreported.congr (q := True)
      (iff_true_intro ⟨j, hle, Nat.lt_succ_self j, hj.isRecorded⟩)
    cases new with
    | true =>
      simp only
      rw [Operation.run_lift_bind (run_markRevoked_delivering ..)]
      exact ⟨_, _, _, rfl, .won hj' hbefore hj (hnew.1 rfl).2 hreported⟩
    | false =>
      simp only
      rw [Operation.run_lift_bind (run_discard_delivering ..)]
      refine ⟨_, _, _, rfl, .lost hj' hbefore hj ?_ hreported⟩
      by_contra hnone
      cases hnew.2 ⟨hunlisted, hnone⟩
  | failed hall =>
    rw [hattempts] at hall hreported ⊢
    exact ⟨_, _, _, rfl, .unheard hall hreported⟩

/-- A rotation of a refresh token that verifies issues a pair and settles it, whatever becomes of its
reports. -/
theorem run_refresh_delivering {value : String} {v : Verified} (hverdict : m.verdict b value = .ok v)
    (hkind : v.details.kind = .refresh) (hsubject : v.claims.subject?.isSome)
    (hexpires : ∀ kind, b.clock.wholeSecond.addSeconds? (m.settings.lifetime kind) ≠ none)
    (plan : Nat → Delivery) :
    ∃ pair b₁ b₂ r b' n', m.Issues v.claims .access b pair.access b₁ ∧
      m.Issues v.claims .refresh b₁ pair.refresh b₂ ∧
      (m.refresh value).run.run (delivering plan) (b, 0) = (.done r, (b', n')) ∧
      m.Settles v plan pair b₂ r b' n' := by
  obtain ⟨-, -, hunlisted, hscope⟩ := verdict_ok hverdict
  have hcomplete := Claims.complete_of_scope hsubject hscope
  rcases exec_issue m v.claims .access b with
    ⟨access, b₁, he, haccess⟩ | ⟨-, hnone⟩ | ⟨-, hnone⟩
  · rcases exec_issue m v.claims .refresh b₁ with
      ⟨refresh, b₂, he', hrefresh⟩ | ⟨-, hnone⟩ | ⟨-, hnone⟩
    · have hunlisted₂ : b₂.revocations.contains v.details.id = false := by
        rw [hrefresh.after, haccess.after, keep_revocations, keep_revocations, hunlisted]
      obtain ⟨r, b', n', hrun, hsettles⟩ :=
        run_exchange_delivering hkind he he' hunlisted₂ plan
      refine ⟨⟨access, refresh⟩, b₁, b₂, r, b', n', haccess, hrefresh, ?_, hsettles⟩
      rw [refresh_eq, Operation.run_bind_ok (run_verify_delivering m value plan b 0), hverdict]
      exact hrun
    · rw [haccess.after, keep_clock] at hnone
      exact absurd hnone (hexpires .refresh)
    · exact absurd hnone hcomplete
  · exact absurd hnone (hexpires .access)
  · exact absurd hnone hcomplete

/-! ### The presented token -/

section

variable {c : Claims} {kind : TokenKind} {t : Token} {value : String} {v : Verified} {known : Bool}

/-- A value that was found is found as before, as long as its record says the same. -/
theorem found_of_standing (h : m.found b value = .ok (v, known)) (hs : Pool.Standing m value v b') :
    ∃ known', m.found b' value = .ok (v, known') := by
  cases hbacking : m.backing with
  | signed k => exact ⟨false, found_of_decode hbacking (decode_of_found hbacking h)⟩
  | stored =>
    obtain ⟨r, hr, hclaims, hdetails⟩ := hs hbacking
    exact ⟨r.isRevoked,
      by rw [found_of_find? hbacking (isWellFormed_of_found hbacking h) hr, hclaims, hdetails]⟩

theorem found_of_store_eq (h : b'.store = b.store) (value : String) :
    m.found b' value = m.found b value := by
  unfold found
  rw [h]

theorem verdict_revoked (hfound : m.found b value = .ok (v, known))
    (hlive : b.clock < v.details.expiresAt)
    (hlisted : b.revocations.contains v.details.id = true) :
    m.verdict b value = .error .revoked := by
  unfold verdict
  rw [hfound]
  simp [hlisted, Instant.not_le.2 hlive]

/-- A value stands for the same as before if the same is known of its token. -/
theorem found_of_agrees (h : b.Agrees b' v.details.id) (hfound : m.found b value = .ok (v, known)) :
    m.found b' value = .ok (v, known) := by
  cases hbacking : m.backing with
  | signed k =>
    simp only [found, hbacking] at hfound ⊢
    exact hfound
  | stored =>
    obtain ⟨r, hr, hid, -⟩ := find?_of_found hbacking hfound
    have hsame : b'.store.find? (OpaqueValue.id m.primitives value) =
        b.store.find? (OpaqueValue.id m.primitives value) := by
      rw [← TokenStore.id_of_find? hr, hid, h.record]
    simp only [found, hbacking, hsame] at hfound ⊢
    exact hfound

theorem verdict_of_agrees (h : b.Agrees b' v.details.id) (hclock : b'.clock = b.clock)
    (hverdict : m.verdict b value = .ok v) : m.verdict b' value = .ok v := by
  obtain ⟨hfound, hlive, hunlisted, hscope⟩ := verdict_ok hverdict
  rw [← hclock] at hlive
  rw [← h.listed] at hunlisted
  rw [verdict, found_of_agrees h hfound]
  simp [Instant.not_le.2 hlive, hunlisted, hscope]

theorem standing_marked (m : TokenManager) (hs : Pool.Standing m value v b) :
    Pool.Standing m value v { b with store := m.marked b v } := by
  unfold marked
  split
  · exact hs.mark _ v.details.id b.clock
  · exact hs

/-- What a rotation that hands its pair out leaves of the presented token: it is revoked if one of the
reports was recorded, and verifies as before if none was. -/
theorem Settles.presented {pair pair' : TokenPair} {n' : Nat}
    (h : m.Settles v plan pair b (.ok pair') b' n') (hverdict : m.verdict b value = .ok v) :
    pair' = pair ∧ (Recorded plan 0 n' → m.verdict b' value = .error .revoked) ∧
      (¬Recorded plan 0 n' → m.verdict b' value = .ok v) := by
  obtain ⟨hfound, hlive, hunlisted, hscope⟩ := verdict_ok hverdict
  have hstanding : Pool.Standing m value v b := fun hs => by
    obtain ⟨r, hr, -, rfl, -⟩ := find?_of_found hs hfound
    exact ⟨r, hr, rfl, rfl⟩
  cases h with
  | @won j b₁ hj hbefore hheard hfirst hreported =>
    have hstanding₁ : Pool.Standing m value v b₁ := by
      intro hs
      rw [hreported.store_eq]
      exact hstanding hs
    obtain ⟨known, hfound'⟩ := found_of_standing hfound (standing_marked m hstanding₁)
    refine ⟨rfl, fun _ => verdict_revoked hfound' ?_ ?_, fun hnone => ?_⟩
    · show b₁.clock < _
      rw [hreported.clock_eq]
      exact hlive
    · exact (hreported.listed _).2 (.inr ⟨trivial, rfl⟩)
    · exact absurd ⟨j, Nat.zero_le j, Nat.lt_succ_self j, hheard.isRecorded⟩ hnone
  | unheard hall hreported =>
    have hfound' : m.found b' value = .ok (v, false) := by
      rw [found_of_store_eq hreported.store_eq, hfound]
    have hlive' : b'.clock < v.details.expiresAt := by
      rw [hreported.clock_eq]
      exact hlive
    refine ⟨rfl, fun hrecorded => verdict_revoked hfound' hlive' ?_, fun hnone => ?_⟩
    · exact (hreported.listed _).2 (.inr ⟨hrecorded, rfl⟩)
    · have hlisted : b'.revocations.contains v.details.id = false := by
        rw [← Bool.not_eq_true, hreported.listed, hunlisted]
        simp [hnone]
      exact verdict_of_agrees ⟨hlisted.trans hunlisted.symm, by rw [hreported.store_eq]⟩
        hreported.clock_eq hverdict

end

/-! ### The new pair -/

section

variable {c : Claims} {kind : TokenKind} {t : Token} {b₁ b₂ : Backend}

theorem Issues.holds_mono {id : TokenId} (h : m.Issues c kind b t b') (hid : m.holds b id = true) :
    m.holds b' id = true := by
  rw [h.after, keep]
  unfold TokenManager.holds at hid ⊢
  cases hbacking : m.backing with
  | signed k => rfl
  | stored =>
    simp only [hbacking] at hid ⊢
    rw [TokenStore.find?_insert]
    split
    · rfl
    · exact hid

theorem holds_marked {id : TokenId} (v : Verified) (hid : m.holds b id = true) :
    m.holds { b with store := m.marked b v } id = true := by
  unfold holds at hid ⊢
  unfold marked
  cases hbacking : m.backing with
  | signed k => rfl
  | stored =>
    simp only [hbacking] at hid ⊢
    cases v.claims.subject? with
    | none => exact hid
    | some s =>
      simp only
      rw [TokenStore.find?_revoke, Option.isSome_map]
      exact hid

theorem Issues.spares {base : Backend} {n : Nat} {ids : List TokenId} (hstored : m.backing = .stored)
    (h : m.Issues c kind b t b') (hb : base.store.Spares c ids b.store)
    (hnew : m.Untaken base n) (hsupply : b.supply = base.supply) (hdrawn : base.drawn ≤ b.drawn)
    (hlt : b.drawn < n) : base.store.Spares c (t.id :: ids) b'.store := by
  obtain ⟨s, hs, -⟩ := h.subject
  obtain ⟨hvalue, hid⟩ := h.stored hstored
  rw [h.after, keep, hstored]
  refine hb.insert (r := t.record c) (by simp [Token.record, hs]) ?_
  show base.store.find? t.id = none
  rw [hid, hvalue, hsupply]
  exact hnew b.drawn hdrawn hlt

/-- A pair that is given up leaves the store as it was. -/
theorem discarded_pair {access refresh : Token} (haccess : m.Issues c .access b access b₁)
    (hrefresh : m.Issues c .refresh b₁ refresh b₂)
    (hnew : m.backing = .stored → m.Untaken b (b.drawn + 2)) :
    m.discarded c [access, refresh] b₂.store = b.store := by
  unfold discarded
  cases hbacking : m.backing with
  | signed k =>
    rw [hrefresh.after, haccess.after]
    simp only [keep, hbacking]
  | stored =>
    obtain ⟨s, hs, -⟩ := haccess.subject
    have hdrawn := haccess.drawn_eq
    have hfirst := haccess.spares hbacking (.refl c b.store) (hnew hbacking) rfl (Nat.le_refl _)
      (by omega)
    have hboth := hrefresh.spares hbacking hfirst (hnew hbacking) haccess.supply_eq (by omega)
      (by omega)
    simp only [hs]
    exact (((hboth.perm (List.Perm.swap ..)).delete hs).delete hs).eq

end

/-! ### Reports that are made again -/

section

variable {value : String} {v : Verified}

/-- A rotation of a refresh token that verifies hands its pair out whatever becomes of its reports,
with one exception: if a report was recorded and fails, and the next one that is heard is made by the
same call, then this finds the token on the list. The call takes that for another rotation and gives
its pair up, and the presented token is revoked all the same. -/
theorem unconfirmed_report (hverdict : m.verdict b value = .ok v) (hkind : v.details.kind = .refresh)
    (hsubject : v.claims.subject?.isSome)
    (hexpires : ∀ kind, b.clock.wholeSecond.addSeconds? (m.settings.lifetime kind) ≠ none)
    (hnew : m.backing = .stored → m.Untaken b (b.drawn + 2)) (plan : Nat → Delivery) :
    ∃ r b' n', (m.refresh value).run.run (delivering plan) (b, 0) = (.done r, (b', n')) ∧
      (Repeats plan m.attempts → r = .error (.rejected .revoked) ∧ b'.store = b.store ∧
        m.verdict b' value = .error .revoked) ∧
      (¬Repeats plan m.attempts → ∃ pair, r = .ok pair ∧
        ∀ t ∈ [pair.access, pair.refresh], m.holds b' t.id = true) := by
  obtain ⟨pair, b₁, b₂, r, b', n', haccess, hrefresh, hrun, hsettles⟩ :=
    run_refresh_delivering hverdict hkind hsubject hexpires plan
  have hholds : ∀ t ∈ [pair.access, pair.refresh], m.holds b₂ t.id = true := by
    simp only [List.forall_mem_cons, List.not_mem_nil, false_implies, implies_true, and_true]
    exact ⟨hrefresh.holds_mono haccess.holds, hrefresh.holds⟩
  have hkept : ∀ {b₃ p}, m.Reported v.details.id b₂ b₃ p →
      ∀ t ∈ [pair.access, pair.refresh], m.holds b₃ t.id = true := by
    intro b₃ p hreported t ht
    rw [TokenManager.holds, hreported.store_eq]
    exact hholds t ht
  refine ⟨r, b', n', hrun, ?_, ?_⟩
  · rintro ⟨i, hi, hheard', hbefore', hrecorded'⟩
    cases hsettles with
    | won hj hbefore hheard hfirst =>
      rw [hbefore.eq hheard hbefore' hheard'] at hfirst
      exact absurd hrecorded' hfirst
    | unheard hall => exact absurd hheard' (hall i (Nat.zero_le i) hi)
    | @lost j b₃ hj hbefore hheard hrecorded hreported =>
      have hstore : m.discarded v.claims [pair.access, pair.refresh] b₃.store = b.store := by
        rw [hreported.store_eq]
        exact discarded_pair haccess hrefresh hnew
      have hclock : b₃.clock = b.clock := by
        rw [hreported.clock_eq, hrefresh.clock_eq, haccess.clock_eq]
      obtain ⟨hfound, hlive, -, -⟩ := verdict_ok hverdict
      have hfound₃ : m.found { b₃ with
          store := m.discarded v.claims [pair.access, pair.refresh] b₃.store } value =
          .ok (v, false) := by
        rw [found_of_store_eq hstore, hfound]
      refine ⟨rfl, hstore, verdict_revoked hfound₃ ?_ ?_⟩
      · show b₃.clock < _
        rw [hclock]
        exact hlive
      · exact (hreported.listed _).2 (.inr ⟨trivial, rfl⟩)
  · intro hnone
    cases hsettles with
    | won hj hbefore hheard hfirst hreported =>
      exact ⟨pair, rfl, fun t ht => holds_marked v (hkept hreported t ht)⟩
    | lost hj hbefore hheard hrecorded => exact absurd ⟨_, hj, hheard, hbefore, hrecorded⟩ hnone
    | unheard hall hreported => exact ⟨pair, rfl, hkept hreported⟩

end

end TokenManager

namespace Sample

/-- The first report is recorded and fails. -/
def firstUnconfirmed : Nat → Delivery
  | 0 => .unconfirmed (.unavailable "timeout")
  | _ => .heard

theorem expires_issued (p : Primitives) (kind : TokenKind) :
    (issued p .refresh).clock.wholeSecond.addSeconds? ((manager p).settings.lifetime kind) ≠ none := by
  cases kind <;> exact Option.some_ne_none _

end Sample

open Sample in
/-- A rotation of a token that nobody else presents or revokes takes its own report for another
rotation. -/
theorem TokenManager.report_mistaken_for_reuse :
    (manager .standard).verdict (issued .standard .refresh) (token .standard .refresh).value =
        .ok ⟨claims, (token .standard .refresh).details⟩ ∧
      (((manager .standard).refresh (token .standard .refresh).value).run.run
        (Backend.delivering firstUnconfirmed) (issued .standard .refresh, 0)).1 =
        .done (.error (.rejected .revoked)) := by
  have hverdict := verdict_token .standard .refresh
  obtain ⟨pair, b₁, b₂, r, b', n', -, -, hrun, hsettles⟩ :=
    run_refresh_delivering hverdict rfl rfl (expires_issued .standard) firstUnconfirmed
  refine ⟨hverdict, ?_⟩
  rw [hrun]
  cases hsettles with
  | @won j _ hj hbefore hheard hfirst =>
    have hpos : 0 < j := Nat.pos_of_ne_zero fun he => (he ▸ hheard : (firstUnconfirmed 0).IsHeard)
    exact absurd ⟨0, Nat.le_refl 0, hpos, trivial⟩ hfirst
  | lost => rfl
  | unheard hall => exact absurd trivial (hall 1 (Nat.zero_le 1) (by decide))

open Sample in
theorem TokenManager.given_up_after_timeout :
    ∃ b' n', ((manager .standard).refresh (token .standard .refresh).value).run.run
        (Backend.delivering firstUnconfirmed) (issued .standard .refresh, 0) =
        (.done (.error (.rejected .revoked)), (b', n')) ∧
      b'.store = (issued .standard .refresh).store := by
  obtain ⟨r, b', n', hrun, hrepeats, -⟩ := unconfirmed_report (verdict_token .standard .refresh) rfl rfl
    (expires_issued .standard) (fun _ => untaken_issued.mono (by decide)) firstUnconfirmed
  have hbefore : Delivery.Unheard firstUnconfirmed 0 1 :=
    Delivery.Unheard.cons (Delivery.unheard_self _ 1) id
  obtain ⟨rfl, hstore, -⟩ := hrepeats
    ⟨1, by decide, trivial, hbefore, 0, Nat.le_refl 0, Nat.one_pos, trivial⟩
  exact ⟨b', n', hrun, hstore⟩

end AccessControl
