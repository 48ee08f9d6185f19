import AccessControl.Proofs.Token.Courses
import AccessControl.Proofs.Token.Rotation

/-!
# Reports that come after a sweep

Any number of rotations of one refresh token run side by side with sweeps, and the clock never goes
backwards. A rotation checks the token first and reports it to the revocation list later. The list
forgets a token only when a sweep finds it expired, so a report is new after another one only where
a sweep has dropped the token in between, and then the call has checked the token before it expired
(`Pool.late_report`). This does happen, and then both rotations hand out a pair
(`Pool.rotated_twice`).
-/

namespace AccessControl

/-- What expires by the time is dropped from the revocation list. -/
def Exchange.Sweeps : Exchange → Instant → Prop
  | ⟨.cleanupRevocations t, _⟩, time => time ≤ t
  | _, _ => False

namespace Pool

variable {ι : Type} [DecidableEq ι] {m : TokenManager} {value : String} {v : Verified}
  {s : SubjectId} {start b : Backend} {before past : ι → List Exchange} {i j : ι} {id : TokenId}
  {time : Instant}

/-! ### What the list forgets -/

/-- A sweep has dropped what expires by the time, after the calls had the exchanges `before`. -/
def SweptSince (before past : ι → List Exchange) (time : Instant) : Prop :=
  ∃ i later, past i = before i ++ later ∧ Trace (·.Sweeps time) later

theorem SweptSince.after (h : SweptSince before past time) (i : ι) (x : Exchange) :
    SweptSince before (after past i x) time := by
  obtain ⟨j, later, hpast, hswept⟩ := h
  by_cases hj : j = i
  · subst hj
    exact ⟨j, later ++ [x], by simp [Pool.after, hpast], trace_append.2 (.inl hswept)⟩
  · exact ⟨j, later, by rw [Pool.after, Function.update_of_ne hj, hpast], hswept⟩

/-- The identifier is on the list until the time, unless a sweep has dropped it since the calls had
the exchanges `before`. -/
def Recalls (id : TokenId) (time : Instant) (before : ι → List Exchange) (b : Backend)
    (past : ι → List Exchange) : Prop :=
  b.revocations.Remembers id time ∨ SweptSince before past time

theorem Recalls.answer (h : Recalls id time before b past) (hbefore : ∀ i, before i <+: past i)
    (q : Ask) : Recalls id time before (b.answer q).2 (Pool.after past i ⟨q, (b.answer q).1⟩) := by
  rcases h with hlisted | hswept
  · cases q with
    | addRevocation id' t => exact .inl (hlisted.add id' t)
    | cleanupRevocations t =>
      by_cases hle : time ≤ t
      · obtain ⟨later, hlater⟩ := hbefore i
        have hsweeps : (⟨.cleanupRevocations t, (b.answer (.cleanupRevocations t)).1⟩ :
          Exchange).Sweeps time := hle
        refine .inr ⟨i, later ++ [_], ?_, trace_append.2 (.inr hsweeps)⟩
        simp [Pool.after, ← hlater]
      · obtain ⟨u, hu, htime⟩ := hlisted
        refine .inl ⟨u, ?_, htime⟩
        show (b.revocations.cleanup t).expiry? id = some u
        rw [RevocationList.expiry?_cleanup, hu, Option.filter_some,
          if_pos (decide_eq_true (Instant.lt_of_lt_of_le (Instant.not_le.1 hle) htime))]
    | _ => exact .inl hlisted
  · exact .inr (hswept.after i _)

/-- Whatever the calls ask. -/
theorem Onward.recalls {α : Type} {pool pool' : Pool ι α} (h : Onward pool pool')
    (hlisted : pool.backend.revocations.Remembers id time) :
    (∀ i, pool.past i <+: pool'.past i) ∧ Recalls id time pool.past pool'.backend pool'.past := by
  induction h with
  | refl => exact ⟨fun _ => List.prefix_rfl, .inl hlisted⟩
  | tail _ hstep ih =>
    obtain ⟨hle, hrecalls⟩ := ih
    cases hstep with
    | @answer i q _ _ _ _ _ hx =>
      obtain ⟨rfl, rfl⟩ := hx
      exact ⟨fun j => (hle j).trans (past_after ..), hrecalls.answer hle q⟩
    | clock => exact ⟨hle, hrecalls⟩

/-! ### One step -/

/-- What holds at every moment while the value, which stands for `v`, is rotated beside sweeps. -/
structure Contested (m : TokenManager) (value : String) (v : Verified) (s : SubjectId)
    (start b : Backend) (past : ι → List Exchange) : Prop where
  stocked : Stocked m s start b past
  /-- The record of the value may be gone, but it is never replaced by another one. -/
  named : m.backing = .stored → ∀ r, b.store.find? (OpaqueValue.id m.primitives value) = some r →
    ⟨r.claims, r.details⟩ = v
  recalls : ∀ i, Trace (·.Reports v.details.id) (past i) →
    Recalls v.details.id v.details.expiresAt (fun _ => []) b past
  one : ∀ i j, Trace (·.Wins v.details.id) (past i) → Trace (·.Wins v.details.id) (past j) →
    i = j ∨ SweptSince (fun _ => []) past v.details.expiresAt

/-- The rules for the calls: every value that is presented stands for `v`. -/
abbrev rules (m : TokenManager) (s : SubjectId) (v : Verified) (q : TokenRequest) : Protocol :=
  q.course m s fun _ w => w = v

/-- The request rotates the value, or it is a sweep. -/
inductive Contests (value : String) : TokenRequest → Prop
  | refresh : Contests value (.refresh value)
  | sweep : Contests value .sweep

theorem Contests.hasCourse {q : TokenRequest} (h : Contests value q) : q.HasCourse := by
  cases h with
  | refresh => exact .refresh value
  | sweep => exact .sweep

omit [DecidableEq ι] in
theorem Contested.named_answer (h : Contested m value v s start b past) {q : TokenRequest} {a : Ask}
    (hfresh : m.backing = .stored →
      start.supply.FreshAfter m.primitives value start.drawn (b.answer a).2.drawn)
    (hmay : (rules m s v q).may (past i) a) (hstored : m.backing = .stored) {r : TokenRecord}
    (hr : (b.answer a).2.store.find? (OpaqueValue.id m.primitives value) = some r) :
    ⟨r.claims, r.details⟩ = v := by
  rcases Backend.found_of_answer hr with ⟨rfl, hid⟩ | ⟨r', hr', hbecomes⟩
  · -- The record is kept for a value that was drawn after the start, so for another one.
    obtain ⟨-, x, hlast, hdigest⟩ := TokenRequest.tidy_of_course hmay
    obtain ⟨n, hle, hlt, rfl⟩ := h.stocked.drawing.range i x (draws_of_getLast? hlast)
    rw [h.stocked.supply] at hdigest
    exact absurd (hdigest.symm.trans hid) ((hfresh hstored).other n hle hlt)
  · obtain ⟨mark, rfl⟩ := hbecomes.eq
    exact h.named hstored r' hr'

/-- No question that a rotation or a sweep may ask breaks the invariant. -/
theorem Contested.answer (h : Contested m value v s start b past) {q : TokenRequest} {a : Ask}
    (hq : Contests value q)
    (hfresh : m.backing = .stored →
      start.supply.FreshAfter m.primitives value start.drawn (b.answer a).2.drawn)
    (hmay : (rules m s v q).may (past i) a) :
    Contested m value v s start (b.answer a).2 (after past i ⟨a, (b.answer a).1⟩) := by
  have hnil : ∀ i, ([] : List Exchange) <+: past i := fun _ => List.nil_prefix
  refine ⟨h.stocked.answer (fun hs => (hfresh hs).distinct) (TokenRequest.tidy_of_course hmay),
    fun hs r => h.named_answer hfresh hmay hs, fun j hj => ?_, fun j k hj hk => ?_⟩
  · rcases trace_after.1 hj with hj | ⟨rfl, hreports⟩
    · exact (h.recalls j hj).answer hnil a
    · -- The token is reported with its own expiry.
      cases a with
      | addRevocation id t =>
        cases hq with
        | refresh =>
          obtain ⟨w, rfl, rfl, rfl, -⟩ := hmay
          exact .inl (RevocationList.remembers_add ..)
        | sweep => exact hmay.elim
      | _ => exact hreports.elim
  · have hfirst : ∀ k, Trace (·.Wins v.details.id) (past k) →
        (⟨a, (b.answer a).1⟩ : Exchange).Wins v.details.id →
        SweptSince (fun _ => []) (after past i ⟨a, (b.answer a).1⟩) v.details.expiresAt := by
      intro k hk hwins
      obtain ⟨x, hx, hxwins⟩ := hk
      rcases h.recalls k ⟨x, hx, hxwins.reports⟩ with hlisted | hswept
      · cases a with
        | addRevocation id t =>
          have hcontains := hlisted.contains
          rw [unlisted_of_wins hwins] at hcontains
          cases hcontains
        | _ => exact hwins.elim
      · exact hswept.after i _
    rcases trace_after.1 hj with hj' | ⟨rfl, hj'⟩ <;> rcases trace_after.1 hk with hk' | ⟨rfl, hk'⟩
    · exact (h.one j k hj' hk').imp_right fun hswept => hswept.after i _
    · exact .inr (hfirst j hj' hk')
    · exact .inr (hfirst k hk' hj')
    · exact .inl rfl

omit [DecidableEq ι] in
theorem Contested.clock (h : Contested m value v s start b past) (t : Instant) :
    Contested m value v s start { b with clock := t } past :=
  ⟨h.stocked.clock t, h.named, h.recalls, h.one⟩

/-! ### All orders of steps -/

variable {requests : ι → TokenRequest} {marked : Bool} {pool pool' : Pool ι TokenReply}

omit [DecidableEq ι] in
theorem Contested.begin (hfound : m.found start value = .ok (v, marked)) :
    Contested m value v s start start (fun _ : ι => []) where
  stocked := stocked_nil m s start
  named hs r hr := by
    obtain ⟨r', hr', -, rfl, -⟩ := TokenManager.find?_of_found hs hfound
    obtain rfl := Option.some.inj (hr.symm.trans hr')
    rfl
  recalls _ h := absurd h trace_nil
  one _ _ h := absurd h trace_nil

/-- The calls that rotate the value, or sweep. -/
abbrev contest (m : TokenManager) (start : Backend) (requests : ι → TokenRequest) :
    Pool ι TokenReply :=
  .start start fun i => m.serve (requests i)

theorem onward_contested (hfound : m.found start value = .ok (v, marked))
    (hsubject : v.claims.subject? = some s) (hrequests : ∀ i, Contests value (requests i))
    (hreaches : Onward (contest m start requests) pool)
    (hfresh : m.backing = .stored →
      start.supply.FreshAfter m.primitives value start.drawn pool.backend.drawn) :
    Contested m value v s start pool.backend pool.past ∧
      ∀ i, (pool.rest i).Follows (rules m s v (requests i))
        ((requests i).Concludes m fun _ w => w = v) (pool.past i) := by
  refine Turn.follows hreaches (fun b => m.backing = .stored →
    start.supply.FreshAfter m.primitives value start.drawn b.drawn) ?_ (fun b t h => h) ?_
    (fun b past t _ h => h.clock t) (.begin hfound) (fun i => ?_) hfresh
  · rintro b _ q _ _ ⟨-, rfl⟩ h hs
    exact (h hs).mono (b.drawn_le_answer q)
  · rintro b _ past i q _ _ ⟨rfl, rfl⟩ hfresh h hmay
    refine ⟨TokenRequest.expect_answer (fun value' hvalue hs r hr => ?_) hmay,
      h.answer (hrequests i) hfresh hmay⟩
    have hi := hrequests i
    rw [hvalue] at hi
    cases hi
    exact h.named hs r hr
  · refine TokenRequest.follows_course (hrequests i).hasCourse (fun _ w hw => hw ▸ hsubject)
      fun k value' w hvalue hs hw => ?_
    have hi := hrequests i
    rw [hvalue] at hi
    cases hi
    exact Except.ok.inj (hw.symm.trans (TokenManager.decode_of_found hs hfound))

/-- A step in which a call reports an identifier, and hears whether it is new. -/
inductive ReportStep (i : ι) (id : TokenId) (new : Bool) :
    Pool ι TokenReply → Pool ι TokenReply → Prop
  | mk {pool : Pool ι TokenReply} {time : Instant} {bound : Bool}
    {next : (Ask.addRevocation id time).Answer → Procedure TokenReply}
    (h : pool.rest i = .ask (.addRevocation id time) bound next)
    (hnew : (pool.backend.answer (.addRevocation id time)).1 = .ok new) :
    ReportStep i id new pool (pool.answered i (.addRevocation id time) next)

theorem ReportStep.onward {new : Bool} (h : ReportStep i id new pool pool') : Onward pool pool' := by
  cases h with
  | mk h _ => exact .single (.answer h ⟨rfl, rfl⟩)

/-- Only a rotation that has checked the token while it had not expired reports it. -/
theorem ReportStep.checked {new : Bool} (h : ReportStep i id new pool pool')
    (hfollows : (pool.rest i).Follows (rules m s v (requests i))
      ((requests i).Concludes m fun _ w => w = v) (pool.past i))
    (hrequests : ∀ i, Contests value (requests i)) :
    id = v.details.id ∧ v.SeenLive (pool.past i) ∧
      pool'.backend.revocations.Remembers id v.details.expiresAt := by
  cases h with
  | mk h _ =>
    rw [h] at hfollows
    obtain ⟨hmay, -⟩ := hfollows
    have hq := hrequests i
    generalize requests i = q at hmay hq
    cases hq with
    | refresh =>
      obtain ⟨w, rfl, rfl, rfl, hlive⟩ := hmay
      exact ⟨rfl, hlive, RevocationList.remembers_add ..⟩
    | sweep => exact hmay.elim

theorem ReportStep.unlisted (h : ReportStep i id true pool pool') :
    pool.backend.revocations.contains id = false := by
  cases h with
  | @mk time _ _ _ hnew =>
    have hnew := Except.ok.inj hnew
    rw [RevocationList.add_fst] at hnew
    exact Bool.not_eq_true' _ ▸ hnew

omit [DecidableEq ι] in
/-- A rotation that succeeds was the first to report the token, after it has checked it. -/
theorem wins_of_done (hfollows : (pool.rest i).Follows (rules m s v (requests i))
      ((requests i).Concludes m fun _ w => w = v) (pool.past i))
    (hrequests : ∀ i, Contests value (requests i)) {pair : TokenPair}
    (hdone : pool.rest i = .done (.pair (.ok pair))) :
    Trace (·.Wins v.details.id) (pool.past i) ∧ v.SeenLive (pool.past i) := by
  rw [hdone] at hfollows
  have hq := hrequests i
  generalize requests i = q at hfollows hq
  cases hq with
  | refresh =>
    obtain ⟨r, hr, hconcluded⟩ := hfollows
    obtain rfl := TokenReply.pair.inj hr
    obtain ⟨rfl, -, hlive, hwins, -⟩ := hconcluded
    exact ⟨hwins, hlive⟩
  | sweep =>
    obtain ⟨r, hr⟩ := hfollows
    cases hr

/-- Rotations of one refresh token beside sweeps, any number of them and in any order of their steps,
while the clock never goes backwards. A report of an identifier that was reported before is new only
if a sweep since then has dropped what expires with the token, and then the call has checked the
token before it expired. So at most one rotation succeeds, unless there was such a sweep. -/
theorem late_report (hfound : m.found start value = .ok (v, marked))
    (hsubject : v.claims.subject? = some s) (hrequests : ∀ i, Contests value (requests i))
    (hreaches : Onward (contest m start requests) pool)
    (hfresh : m.backing = .stored →
      start.supply.FreshAfter m.primitives value start.drawn pool.backend.drawn) :
    (∀ i j id new pool₀ pool₁ pool₂, Onward (contest m start requests) pool₀ →
      ReportStep i id new pool₀ pool₁ → Onward pool₁ pool₂ → ReportStep j id true pool₂ pool →
      SweptSince pool₁.past pool₂.past v.details.expiresAt ∧ v.SeenLive (pool₂.past j)) ∧
    (∀ i j p p', pool.rest i = .done (.pair (.ok p)) → pool.rest j = .done (.pair (.ok p')) →
      i = j ∨ SweptSince (fun _ => []) pool.past v.details.expiresAt ∧
        v.SeenLive (pool.past i) ∧ v.SeenLive (pool.past j)) := by
  have hbefore : ∀ {pool₀}, Onward pool₀ pool → m.backing = .stored →
      start.supply.FreshAfter m.primitives value start.drawn pool₀.backend.drawn :=
    fun h hs => (hfresh hs).mono h.drawn_le
  refine ⟨fun i j id new pool₀ pool₁ pool₂ h₀ hfirst hbetween hlater => ?_, fun i j p p' hi hj => ?_⟩
  · have h₂ := (h₀.trans hfirst.onward).trans hbetween
    obtain ⟨-, hcalls₀⟩ := onward_contested hfound hsubject hrequests h₀
      (hbefore (hfirst.onward.trans (hbetween.trans hlater.onward)))
    obtain ⟨-, hcalls₂⟩ := onward_contested hfound hsubject hrequests h₂ (hbefore hlater.onward)
    obtain ⟨-, -, hlisted⟩ := hfirst.checked (hcalls₀ i) hrequests
    obtain ⟨-, hlive, -⟩ := hlater.checked (hcalls₂ j) hrequests
    refine ⟨(hbetween.recalls hlisted).2.resolve_left fun hstill => ?_, hlive⟩
    have hcontains := hstill.contains
    rw [hlater.unlisted] at hcontains
    cases hcontains
  · obtain ⟨hcontested, hcalls⟩ := onward_contested hfound hsubject hrequests hreaches hfresh
    obtain ⟨hwins, hlive⟩ := wins_of_done (hcalls i) hrequests hi
    obtain ⟨hwins', hlive'⟩ := wins_of_done (hcalls j) hrequests hj
    exact (hcontested.one i j hwins hwins').imp_right fun hswept => ⟨hswept, hlive, hlive'⟩

end Pool

namespace TokenManager

open Procedure

/-- What is left of a rotation when its value has been verified. -/
def resume (m : TokenManager) :
    Except TokenError (Except VerificationFailure Verified) → Procedure TokenReply
  | .ok (.ok v) => (m.exchangeVerified v).run.bind fun r => .done (.pair r)
  | .ok (.error f) => .done (.pair (.error (.rejected f)))
  | .error e => .done (.pair (.error e))

theorem serve_refresh (m : TokenManager) (value : String) :
    m.serve (.refresh value) = (m.verify value).run.bind m.resume := by
  show ((m.verify value).run.bind _).bind _ = _
  rw [bind_assoc]
  congr
  funext r
  rcases r with e | f | v <;> rfl

end TokenManager

namespace Sample

/-! ### A sweep between two reports -/

open TokenManager

variable (p : Primitives)

/-- Two rotations of one token, and a sweep. -/
def rotations : Option Bool → TokenRequest
  | none => .sweep
  | some _ => .refresh (token p .refresh).value

theorem contests_rotations (i : Option Bool) :
    Pool.Contests (token p .refresh).value (rotations p i) := by
  cases i with
  | none => exact .sweep
  | some _ => exact .refresh

def details : TokenDetails := (token p .refresh).details

theorem verdict_issued :
    (manager p).verdict (issued p .refresh) (token p .refresh).value = .ok ⟨claims, details p⟩ :=
  verdict_token p .refresh

/-- Once the token has expired it is forgotten, and can be exchanged again. -/
theorem exchanged_after_sweep {b : Backend} (hclock : b.clock = (details p).expiresAt)
    (hlist : b.revocations = RevocationList.empty) :
    ∃ pair b', b.run ((manager p).resume (.ok (.ok ⟨claims, details p⟩))) =
      (.done (.pair (.ok pair)), b') ∧ b'.drawn = b.drawn + 2 := by
  have hnew : b.revocations.contains (details p).id = false := by rw [hlist]; rfl
  have hrun : b.run ((manager p).resume (.ok (.ok ⟨claims, details p⟩))) = _ :=
    Backend.run_reply ((manager p).exchangeVerified ⟨claims, details p⟩) TokenReply.pair b
  rw [hrun]
  rcases exec_exchange (m := manager p) (v := ⟨claims, details p⟩) rfl hnew with
    ⟨pair, b', b'', he, haccess, hrefresh⟩ | ⟨t, b', he, haccess, hnone⟩ | ⟨he, hnone⟩ | ⟨he, hnone⟩
  · refine ⟨pair, _, by rw [he]; rfl, ?_⟩
    show b''.drawn = b.drawn + 2
    rw [hrefresh.after, haccess.after, keep_drawn, keep_drawn]
  · rw [haccess.after, keep_clock, hclock] at hnone
    cases hnone
  · rw [hclock] at hnone
    cases hnone
  · rcases hnone with h | h | h <;> cases h

theorem rotated_after_sweep :
    ∃ (pool : Pool (Option Bool) TokenReply) (pair pair' : TokenPair),
      Pool.Onward (Pool.contest (manager p) (issued p .refresh) (rotations p)) pool ∧
      pool.backend.drawn = 5 ∧ pool.rest (some true) = .done (.pair (.ok pair)) ∧
      pool.rest (some false) = .done (.pair (.ok pair')) := by
  obtain ⟨pair, b₁, hexec, hrotates, hdrawn⟩ := refresh_first p
  have hverified : (issued p .refresh).run ((manager p).verify (token p .refresh).value).run =
      (.done (.ok (.ok ⟨claims, details p⟩)), issued p .refresh) := by
    rw [← verdict_issued]
    exact exec_verify ..
  -- The second call has only verified the token when the first one takes all its steps.
  let rest : Option Bool → Procedure TokenReply :=
    Function.update (fun i => (manager p).serve (rotations p i)) (some false)
      ((manager p).resume (.ok (.ok ⟨claims, details p⟩)))
  obtain ⟨past, hchecked⟩ : ∃ past, Pool.Onward (Pool.contest (manager p) (issued p .refresh)
      (rotations p)) ⟨issued p .refresh, past, rest⟩ := Pool.onward_alone (serve_refresh ..) hverified
  let rest₁ := Function.update rest (some true) (.done (.pair (.ok pair)))
  obtain ⟨past₁, hfirst⟩ := Pool.onward_done past rest (some true) (run_first hexec)
  -- The token expires, and a sweep drops it from the list.
  have hlater : b₁.clock ≤ (details p).expiresAt := by
    rw [hrotates.clock_eq]
    exact Instant.le_of_lt (presented p).live
  obtain ⟨report, past₂, b₂, hsweep, hclock, hdrawn₂, hlist⟩ : ∃ report past₂ b₂, Pool.Onward
      ⟨{ b₁ with clock := (details p).expiresAt }, past₁, rest₁⟩
      ⟨b₂, past₂, Function.update rest₁ none (.done (.swept report))⟩ ∧
      b₂.clock = (details p).expiresAt ∧ b₂.drawn = b₁.drawn ∧
      b₂.revocations = b₁.revocations.cleanup (details p).expiresAt := by
    obtain ⟨report, hswept⟩ := serve_sweep (manager p) { b₁ with clock := (details p).expiresAt }
    obtain ⟨past₂, honward⟩ := Pool.onward_done past₁ rest₁ none hswept
    exact ⟨report, past₂, _, honward, rfl, rfl, rfl⟩
  have hforgotten : b₂.revocations = RevocationList.empty := by
    obtain ⟨v, hv, hlisted⟩ := hrotates.revocations_eq
    rw [verdict_issued] at hv
    obtain rfl := Except.ok.inj hv
    rw [hlist, hlisted]
    rfl
  obtain ⟨pair', b₃, hagain, hdrawn₃⟩ := exchanged_after_sweep p hclock hforgotten
  obtain ⟨past₃, hsecond⟩ := Pool.onward_done past₂
    (Function.update rest₁ none (.done (.swept report))) (some false) hagain
  refine ⟨_, pair, pair', (((hchecked.trans hfirst).tail (.clock hlater)).trans hsweep).trans hsecond,
    ?_, rfl, rfl⟩
  show b₃.drawn = 5
  rw [hdrawn₃, hdrawn₂, hdrawn]

end Sample

open Sample in
/-- Two rotations of one token succeed. -/
theorem Pool.rotated_twice :
    ∃ (pool : Pool (Option Bool) TokenReply) (pair pair' : TokenPair),
      Pool.Onward (Pool.contest (manager .standard) (issued .standard .refresh) (rotations .standard))
        pool ∧
      pool.rest (some true) = .done (.pair (.ok pair)) ∧
      pool.rest (some false) = .done (.pair (.ok pair')) := by
  obtain ⟨pool, pair, pair', hreaches, -, hfirst, hsecond⟩ := rotated_after_sweep .standard
  exact ⟨pool, pair, pair', hreaches, hfirst, hsecond⟩

open Sample in
theorem Pool.rotated_beside_sweep :
    ∃ (pool : Pool (Option Bool) TokenReply) (pair pair' : TokenPair),
      pool.rest (some true) = .done (.pair (.ok pair)) ∧
      pool.rest (some false) = .done (.pair (.ok pair')) ∧
      SweptSince (fun _ => []) pool.past (details .standard).expiresAt := by
  obtain ⟨pool, pair, pair', hreaches, hdrawn, hfirst, hsecond⟩ := rotated_after_sweep .standard
  have hfresh : (issued .standard .refresh).supply.FreshAfter (manager .standard).primitives
      (token .standard .refresh).value (issued .standard .refresh).drawn pool.backend.drawn :=
    hdrawn ▸ fresh_five.after Nat.one_pos
  have h := (late_report (found_token .standard .refresh) rfl (contests_rotations .standard) hreaches
    fun _ => hfresh).2 _ _ pair pair' hfirst hsecond
  exact ⟨pool, pair, pair', hfirst, hsecond, (h.resolve_left nofun).1⟩

end AccessControl
