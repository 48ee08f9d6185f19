import AccessControl.Proofs.Token.Revocation
import AccessControl.Proofs.Token.RotationCalls
import AccessControl.Proofs.Token.Stock

/-!
# A refresh token is rotated once

Any number of rotations and revocations of one refresh token run side by side. At most one rotation
hands out a pair; all others find the token revoked and leave no record behind (`one_rotation`). The
invariant of the pool has one part for each shared thing: the values that were drawn and the store
(`Stocked`), and the revocation list (`Winning`).
-/

namespace AccessControl

/-- The values drawn from `first` on, up to `last`, name different records, and none of them the
record of the given value. -/
structure Supply.FreshAfter (s : Supply) (p : Primitives) (value : String) (first last : Nat) :
    Prop where
  distinct : ∀ i j, first ≤ i → i < last → first ≤ j → j < last →
    OpaqueValue.id p (s.value i) = OpaqueValue.id p (s.value j) → i = j
  other : ∀ i, first ≤ i → i < last → OpaqueValue.id p (s.value i) ≠ OpaqueValue.id p value

theorem Supply.FreshAfter.mono {s : Supply} {p : Primitives} {value : String} {first n n' : Nat}
    (h : s.FreshAfter p value first n') (hle : n ≤ n') : s.FreshAfter p value first n :=
  ⟨fun i j hi hin hj hjn => h.distinct i j hi (by omega) hj (by omega),
    fun i hi hin => h.other i hi (by omega)⟩

/-- Fresh values stay apart from those that were drawn before. -/
theorem Supply.Fresh.after {s : Supply} {p : Primitives} {k first last : Nat} (h : s.Fresh p last)
    (hk : k < first) : s.FreshAfter p (s.value k) first last :=
  ⟨fun i j _ hi _ hj he => h.distinct i hi j hj he, fun i hle hi he => by
    have := h.distinct i hi k (by omega) he
    omega⟩

namespace Pool

variable {ι : Type} [DecidableEq ι] {m : TokenManager} {value : String} {v : Verified}
  {s : SubjectId} {first : Nat} {b : Backend} {past : ι → List Exchange} {i : ι}

/-! ### The revocation list -/

/-- At most one call was the first to report the presented token. -/
structure Winning (id : TokenId) (b : Backend) (past : ι → List Exchange) : Prop where
  known : ∀ i, Trace (·.Wins id) (past i) → b.revocations.contains id = true
  one : ∀ i j, Trace (·.Wins id) (past i) → Trace (·.Wins id) (past j) → i = j

/-- Only what is not on the list is reported for the first time. -/
theorem unlisted_of_wins {b : Backend} {id id' : TokenId} {t : Instant}
    (h : (⟨.addRevocation id' t, .ok (b.revocations.add id' t).1⟩ : Exchange).Wins id) :
    b.revocations.contains id = false := by
  obtain rfl := Exchange.eq_of_wins h
  rw [RevocationList.add_fst] at h
  cases hlisted : b.revocations.contains id' with
  | false => rfl
  | true =>
    rw [hlisted] at h
    exact h.elim

theorem Winning.idle {id : TokenId} {b' : Backend} {x : Exchange} (h : Winning id b past)
    (hlist : b.revocations.contains id = true → b'.revocations.contains id = true)
    (hwins : ¬x.Wins id) : Winning id b' (after past i x) := by
  refine ⟨fun j hj => ?_, fun j k hj hk => ?_⟩
  · simp only [trace_after, hwins, and_false, or_false] at hj
    exact hlist (h.known j hj)
  · simp only [trace_after, hwins, and_false, or_false] at hj hk
    exact h.one j k hj hk

theorem Winning.report {id : TokenId} (h : Winning id b past) (t : Instant) :
    Winning id { b with revocations := (b.revocations.add id t).2 }
      (after past i ⟨.addRevocation id t, .ok (b.revocations.add id t).1⟩) := by
  refine ⟨fun j hj => ?_, fun j k hj hk => ?_⟩
  · rw [RevocationList.contains_add]
    simp
  · rcases trace_after.1 hj with hj' | ⟨rfl, hj'⟩ <;> rcases trace_after.1 hk with hk' | ⟨rfl, hk'⟩
    · exact h.one j k hj' hk'
    · exact absurd (h.known j hj') (by rw [unlisted_of_wins hk']; exact Bool.false_ne_true)
    · exact absurd (h.known k hk') (by rw [unlisted_of_wins hj']; exact Bool.false_ne_true)
    · rfl

/-- Only cleanups drop something from the revocation list. -/
theorem contains_answer {id : TokenId} {q : Ask} (hq : ∀ t, q ≠ .cleanupRevocations t)
    (h : b.revocations.contains id = true) : (b.answer q).2.revocations.contains id = true := by
  cases q with
  | addRevocation id' t =>
    show (b.revocations.add id' t).2.contains id = true
    rw [RevocationList.contains_add, h, Bool.or_true]
  | cleanupRevocations t => exact absurd rfl (hq t)
  | _ => exact h

/-- As long as nothing is dropped from the list. -/
theorem Winning.answer {id : TokenId} (h : Winning id b past) {q : Ask}
    (hq : ∀ t, q ≠ .cleanupRevocations t) :
    Winning id (b.answer q).2 (after past i ⟨q, (b.answer q).1⟩) := by
  cases q with
  | addRevocation id' t =>
    by_cases hid : id' = id
    · subst hid
      exact h.report t
    · exact h.idle (contains_answer hq) fun hwins => hid (Exchange.eq_of_wins hwins)
  | _ => exact h.idle (contains_answer hq) fun h => h

/-! ### One step -/

/-- The record of the presented token is there and says the same as before. -/
def Standing (m : TokenManager) (value : String) (v : Verified) (b : Backend) : Prop :=
  m.backing = .stored → ∃ r, b.store.find? (OpaqueValue.id m.primitives value) = some r ∧
    r.claims = v.claims ∧ r.details = v.details

theorem Standing.insert (h : Standing m value v b) {r : TokenRecord}
    (hne : r.id ≠ OpaqueValue.id m.primitives value) :
    Standing m value v { b with store := b.store.insert r } := fun hs => by
  obtain ⟨r', hr', hsame⟩ := h hs
  exact ⟨r', by rw [TokenStore.find?_insert, if_neg hne.symm, hr'], hsame⟩

theorem Standing.delete (h : Standing m value v b) {id : TokenId} (s : SubjectId)
    (hne : id ≠ OpaqueValue.id m.primitives value) :
    Standing m value v { b with store := (b.store.delete s id).2 } := fun hs => by
  obtain ⟨r, hr, hsame⟩ := h hs
  exact ⟨r, by rw [TokenStore.find?_delete, if_neg hne.symm, hr], hsame⟩

theorem Standing.mark (h : Standing m value v b) (s : SubjectId) (id : TokenId) (t : Instant) :
    Standing m value v { b with store := (b.store.revoke s id t).2 } := fun hs => by
  obtain ⟨r, hr, hclaims, hdetails⟩ := h hs
  have hfind := TokenStore.find?_revoke b.store s id (OpaqueValue.id m.primitives value) t
  rw [hr, Option.map_some] at hfind
  refine ⟨_, hfind, ?_⟩
  split
  · obtain ⟨t', he⟩ := r.mark_eq t
    rw [he]
    exact ⟨hclaims, hdetails⟩
  · exact ⟨hclaims, hdetails⟩

/-- What holds at every moment while calls rotate and revoke the presented token. -/
structure Race (m : TokenManager) (value : String) (v : Verified) (s : SubjectId) (start : Backend)
    (b : Backend) (past : ι → List Exchange) : Prop where
  supply : b.supply = start.supply
  drawn : start.drawn ≤ b.drawn
  live : b.clock < v.details.expiresAt
  standing : Standing m value v b
  drawing : Drawing m.primitives start.drawn b past
  storing : Storing s b past
  winning : Winning v.details.id b past

variable {start : Backend}

omit [DecidableEq ι] in
theorem Race.stocked (h : Race m value v s start b past) : Stocked m s start b past :=
  ⟨h.supply, h.drawn, h.drawing, h.storing⟩

omit [DecidableEq ι] in
theorem Race.ne_presented (h : Race m value v s start b past)
    (hfresh : start.supply.FreshAfter m.primitives value start.drawn b.drawn) {x : String}
    (hx : Trace (·.Draws x) (past i)) :
    OpaqueValue.id m.primitives x ≠ OpaqueValue.id m.primitives value := by
  obtain ⟨n, hle, hlt, rfl⟩ := h.drawing.range i x hx
  rw [h.supply]
  exact hfresh.other n hle hlt

omit [DecidableEq ι] in
/-- The calls get the answers that they count on. -/
theorem Race.expects (h : Race m value v s start b past) {q : Ask}
    (hmay : (rotationProtocol m value v s).may (past i) q) :
    (rotationProtocol m value v s).expect q (b.answer q).1 := by
  cases q with
  | now => exact h.live
  | findRecord id =>
    obtain ⟨hstored, rfl⟩ := hmay
    obtain ⟨r, hr, hsame⟩ := h.standing hstored
    exact ⟨r, congrArg Except.ok hr, hsame⟩
  | insertRecord r => rfl
  | addRevocation id t => exact ⟨_, rfl⟩
  | findRevocation id => exact ⟨_, rfl⟩
  | _ => trivial

theorem tidy_of_may {q : Ask} {past : List Exchange}
    (hmay : (rotationProtocol m value v s).may past q) : q.Tidy m s past := by
  cases q with
  | freshValue => exact hmay
  | insertRecord r => exact hmay.2
  | deleteRecord s' id => exact hmay.2
  | _ => trivial

/-- No question that a rotation or a revocation may ask breaks the invariant. -/
theorem Race.answer (h : Race m value v s start b past) {q : Ask}
    (hfresh : m.backing = .stored →
      start.supply.FreshAfter m.primitives value start.drawn (b.answer q).2.drawn)
    (hmay : (rotationProtocol m value v s).may (past i) q) :
    Race m value v s start (b.answer q).2 (after past i ⟨q, (b.answer q).1⟩) := by
  have hfresh' := fun hs => (hfresh hs).mono (b.drawn_le_answer q)
  have hstocked := h.stocked.answer (fun hs => (hfresh hs).distinct) (tidy_of_may hmay)
  refine ⟨hstocked.supply, hstocked.drawn, (b.answer_clock q).symm ▸ h.live, ?_, hstocked.drawing,
    hstocked.storing, ?_⟩
  · cases q with
    | insertRecord r =>
      obtain ⟨hstored, -, x, hlast, hid⟩ := hmay
      exact h.standing.insert (hid ▸ h.ne_presented (hfresh' hstored) (draws_of_getLast? hlast))
    | deleteRecord s' id =>
      obtain ⟨hstored, -, hkept⟩ := hmay
      obtain ⟨x, hx, rfl⟩ := h.drawing.drawn i id hkept
      exact h.standing.delete s' (h.ne_presented (hfresh' hstored) hx)
    | revokeRecord s' id t => exact h.standing.mark s' id t
    | cleanupRecords t => exact hmay.elim
    | _ => exact h.standing
  · refine h.winning.answer ?_
    rintro t rfl
    exact hmay

omit [DecidableEq ι] in
theorem Race.clock (h : Race m value v s start b past) {t : Instant}
    (ht : t < v.details.expiresAt) : Race m value v s start { b with clock := t } past where
  supply := h.supply
  drawn := h.drawn
  live := ht
  standing := h.standing
  drawing := { h.drawing with }
  storing := { h.storing with }
  winning := { h.winning with }

/-! ### All orders of steps -/

theorem standing_of_presented (hp : Presented m b value v s) : Standing m value v b := fun hs => by
  obtain ⟨marked, hfound⟩ := hp.found
  obtain ⟨r, hr, -, rfl, -⟩ := TokenManager.find?_of_found hs hfound
  exact ⟨r, hr, rfl, rfl⟩

omit [DecidableEq ι] in
theorem Race.begin (hp : Presented m start value v s) :
    Race m value v s start start (fun _ : ι => []) where
  supply := rfl
  drawn := Nat.le_refl _
  live := hp.live
  standing := standing_of_presented hp
  drawing := drawing_nil ..
  storing := ⟨fun _ _ h => absurd h trace_nil, fun _ _ h => absurd h trace_nil⟩
  winning := ⟨fun _ h => absurd h trace_nil, fun _ _ h => absurd h trace_nil⟩

inductive Contends (value : String) : TokenRequest → Prop
  | refresh : Contends value (.refresh value)
  | revoke : Contends value (.revoke value)

/-- The ways in which a call for a request may end. -/
def Closes (v : Verified) (q : TokenRequest) (past : List Exchange) (reply : TokenReply) : Prop :=
  match q with
  | .refresh _ => ∃ r, reply = .pair r ∧ TokenManager.Rotated v past r
  | _ => ∃ r, reply = .revoked r

theorem follows_serve {q : TokenRequest} (hp : Presented m b value v s) (hq : Contends value q) :
    (m.serve q).Follows (rotationProtocol m value v s) (Closes v q) [] := by
  cases hq with
  | refresh =>
    exact Procedure.Follows.bind (TokenManager.follows_refresh hp) fun _ r h => ⟨r, rfl, h⟩
  | revoke =>
    exact Procedure.Follows.bind (TokenManager.follows_revoke hp) fun _ r _ => ⟨r, rfl⟩

/-- In every pool that is reached the invariant holds, and every call is on its way to one of its
endings. -/
theorem reaches_race {requests : ι → TokenRequest} {pool : Pool ι TokenReply}
    (hp : Presented m start value v s) (hrequests : ∀ i, Contends value (requests i))
    (hreaches : Reaches (· < v.details.expiresAt)
      (.start start fun i => m.serve (requests i)) pool)
    (hfresh : m.backing = .stored →
      start.supply.FreshAfter m.primitives value start.drawn pool.backend.drawn) :
    Race m value v s start pool.backend pool.past ∧
      ∀ i, (pool.rest i).Follows (rotationProtocol m value v s) (Closes v (requests i))
        (pool.past i) := by
  refine hreaches.follows (fun b => m.backing = .stored →
    start.supply.FreshAfter m.primitives value start.drawn b.drawn) (fun b q h hs => ?_)
    (fun b t h => h) (fun b past i q hfresh h hmay => ?_) (fun b past t ht h => h.clock ht)
    (.begin hp) (fun i => follows_serve hp (hrequests i)) hfresh
  · exact (h hs).mono (b.drawn_le_answer q)
  · exact ⟨h.expects hmay, h.answer hfresh hmay⟩

/-- Rotations and revocations of one refresh token, any number of them and in any order of their
steps, while the token has not expired: at most one rotation succeeds; every other one that returns
reports that the token was revoked, and then none of the records that it kept is left. A call is
broken off only where a lifetime ends beyond the representable years. -/
theorem one_rotation {requests : ι → TokenRequest} {pool : Pool ι TokenReply}
    (hp : Presented m start value v s) (hrequests : ∀ i, Contends value (requests i))
    (hreaches : Reaches (· < v.details.expiresAt)
      (.start start fun i => m.serve (requests i)) pool)
    (hfresh : m.backing = .stored →
      start.supply.FreshAfter m.primitives value start.drawn pool.backend.drawn) :
    (∀ i j p p', pool.rest i = .done (.pair (.ok p)) → pool.rest j = .done (.pair (.ok p')) →
      i = j) ∧
    (∀ i reply, requests i = .refresh value → pool.rest i = .done reply →
      (∃ p, reply = .pair (.ok p)) ∨ reply = .pair (.error (.rejected .revoked))) ∧
    (∀ i, pool.rest i = .done (.pair (.error (.rejected .revoked))) →
      ∀ r a, ⟨.insertRecord r, a⟩ ∈ pool.past i → pool.backend.store.find? r.id = none) ∧
    (∀ i, pool.rest i = .abort → ∃ t kind, ⟨.now, t⟩ ∈ pool.past i ∧
      t.wholeSecond.addSeconds? (m.settings.lifetime kind) = none) := by
  obtain ⟨hrace, hcalls⟩ := reaches_race hp hrequests hreaches hfresh
  have hrefresh : ∀ i r, pool.rest i = .done (.pair r) →
      TokenManager.Rotated v (pool.past i) r := by
    intro i r hi
    have hends := hcalls i
    have hq := hrequests i
    rw [hi] at hends
    generalize requests i = q at hends hq
    cases hq with
    | refresh =>
      obtain ⟨r', he, h⟩ := hends
      obtain rfl := TokenReply.pair.inj he
      exact h
    | revoke =>
      obtain ⟨r', he⟩ := hends
      cases he
  refine ⟨fun i j p p' hi hj => ?_, fun i reply hreq hi => ?_, fun i hi r a hr => ?_, fun i hi => ?_⟩
  · obtain ⟨-, hwon⟩ := hrefresh i _ hi
    obtain ⟨-, hwon'⟩ := hrefresh j _ hj
    exact hrace.winning.one i j hwon hwon'
  · have hends := hcalls i
    rw [hi, hreq] at hends
    obtain ⟨r, rfl, hrotated⟩ := hends
    cases hrotated with
    | won p _ => exact .inl ⟨p, rfl⟩
    | lost _ => exact .inr rfl
  · cases hrefresh i _ hi with
    | lost h => exact hrace.storing.gone i r.id (h r.id ⟨_, hr, rfl⟩)
  · have hends := hcalls i
    rw [hi] at hends
    obtain ⟨t, kind, ⟨x, hx, hshows⟩, he⟩ := hends
    exact ⟨t, kind, Exchange.eq_of_shows hshows ▸ hx, he⟩

end Pool

namespace Sample

/-! ### Two rotations of one token -/

open TokenManager

theorem fresh_three : Supply.counting.Fresh .standard 3 := fresh_four.mono (Nat.le_succ 3)

theorem presented (p : Primitives) :
    Presented (manager p) (issued p .refresh) (token p .refresh).value
      ⟨claims, (token p .refresh).details⟩ ⟨"alice"⟩ where
  found := ⟨false, found_token p .refresh⟩
  live := by
    show (⟨1700000000, 0⟩ : Instant) < ⟨1700604800, 0⟩
    decide
  kind := rfl
  scope := rfl
  subject := rfl
  keyed _ := rfl

theorem refresh_first (p : Primitives) :
    ∃ pair b,
      (issued p .refresh).exec ((manager p).refresh (token p .refresh).value) =
        (.done (.ok pair), b) ∧
      (manager p).Rotates (token p .refresh).value (issued p .refresh) (.done (.ok pair)) b ∧
      b.drawn = 3 := by
  have hverdict := verdict_token p .refresh
  have h := exec_refresh (manager p) (token p .refresh).value (issued p .refresh)
  generalize (issued p .refresh).exec ((manager p).refresh (token p .refresh).value) = result at h
  obtain ⟨o, b⟩ := result
  have hrotates := h
  cases h with
  | rejected h => rw [hverdict] at h; cases h
  | wrongKind h hkind =>
    rw [hverdict] at h
    cases h
    exact absurd rfl hkind
  | incomplete h hnone =>
    rw [hverdict] at h
    cases h
    rcases hnone with h | h | h <;> cases h
  | aborted _ _ hnone => cases hnone
  | halfway _ _ haccess hnone =>
    rw [haccess.after, keep_clock] at hnone
    cases hnone
  | @rotated v pair b' b'' h _ haccess hrefresh =>
    refine ⟨pair, _, rfl, hrotates, ?_⟩
    show b''.drawn = 3
    rw [hrefresh.after, haccess.after, keep_drawn, keep_drawn]
    rfl

theorem run_first {p : Primitives} {pair : TokenPair} {b : Backend}
    (h : (issued p .refresh).exec ((manager p).refresh (token p .refresh).value) =
      (.done (.ok pair), b)) :
    (issued p .refresh).run ((manager p).serve (.refresh (token p .refresh).value)) =
      (.done (.pair (.ok pair)), b) := by
  rw [TokenManager.serve, Backend.run_reply, h, Outcome.map]

/-- How a rotation has ended: it handed a pair out, or it found its token revoked. -/
def rotated? : Procedure TokenReply → Option Bool
  | .done (.pair (.ok _)) => some true
  | .done (.pair (.error (.rejected .revoked))) => some false
  | _ => none

theorem exists_pair_of_rotated {rest : Procedure TokenReply} (h : rotated? rest = some true) :
    ∃ pair, rest = .done (.pair (.ok pair)) := by
  unfold rotated? at h
  split at h
  · exact ⟨_, rfl⟩
  · cases h
  · cases h

theorem eq_of_rotated {rest : Procedure TokenReply} (h : rotated? rest = some false) :
    rest = .done (.pair (.error (.rejected .revoked))) := by
  unfold rotated? at h
  split at h
  · cases h
  · rfl
  · cases h

/-- The records that a call has kept. -/
def kept (past : List Exchange) : List TokenId :=
  past.filterMap fun
    | ⟨.insertRecord r, _⟩ => some r.id
    | _ => none

/-- Two rotations of one token, before their first step. -/
def rivals : Pool Bool TokenReply :=
  .start (issued .standard .refresh) fun _ =>
    (manager .standard).serve (.refresh (token .standard .refresh).value)

/-- Each takes so many steps, one after the other. -/
def turns (n : Nat) : List Bool := (List.replicate n [true, false]).flatten

/-- Both have verified the token and kept the records of a pair, and neither has reported the token
yet. -/
def halfway : Pool Bool TokenReply := rivals.play (turns 9)

def raced : Pool Bool TokenReply := halfway.play (turns 3)

theorem reaches_raced : Pool.Reaches (· < (token .standard .refresh).expiresAt) rivals raced :=
  (Pool.reaches_play _ rivals _).trans (Pool.reaches_play _ halfway _)

end Sample

open Sample in
/-- Both rotations have kept the records of a pair before either reports the token. One wins, and
the other one removes its records. -/
theorem Pool.one_of_two_rotations :
    (halfway.backend.revocations.size = 0 ∧ ∀ i, (kept (halfway.past i)).length = 2) ∧
    (∃ pair, raced.rest true = .done (.pair (.ok pair))) ∧
    (∀ i pair, raced.rest i = .done (.pair (.ok pair)) → i = true) ∧
    raced.rest false = .done (.pair (.error (.rejected .revoked))) ∧
    ∀ r a, ⟨.insertRecord r, a⟩ ∈ raced.past false → raced.backend.store.find? r.id = none := by
  obtain ⟨hunreported, hkept, hwon, hlost, hdrawn⟩ : halfway.backend.revocations.size = 0 ∧
      (∀ i, (kept (halfway.past i)).length = 2) ∧ rotated? (raced.rest true) = some true ∧
      rotated? (raced.rest false) = some false ∧ raced.backend.drawn = 5 := by
    decide +kernel
  obtain ⟨pair, hpair⟩ := exists_pair_of_rotated hwon
  have hrefused := eq_of_rotated hlost
  have hfresh : (issued .standard .refresh).supply.FreshAfter (manager .standard).primitives
      (token .standard .refresh).value (issued .standard .refresh).drawn raced.backend.drawn := by
    rw [hdrawn]
    exact fresh_five.after Nat.one_pos
  obtain ⟨hone, -, hgone, -⟩ :=
    one_rotation (presented .standard) (fun _ => .refresh) reaches_raced fun _ => hfresh
  exact ⟨⟨hunreported, hkept⟩, ⟨pair, hpair⟩, fun i p hi => hone i true p pair hi hpair, hrefused,
    hgone false hrefused⟩

end AccessControl
