import AccessControl.Proofs.Token.FailFast
import AccessControl.Proofs.Token.Frame
import AccessControl.Proofs.Token.Revocation

/-!
# Revoking all tokens of a subject, and again after a failure

A call can stop between any two of its steps, which leaves some records listed, some listed and
marked, and the others as they were. `Backend.Nears` says this of each identifier on its own: known
as before, or that of a record which the call was to revoke, listed and perhaps marked. It composes
(`Nears.trans`), so any number of broken-off calls still lead towards what one complete call comes to
(`revokeAll_resumes`).
-/

namespace AccessControl

namespace Backend

/-- The identifier is that of a record which was to be revoked; it is listed, and the record may have
a mark. -/
def Underway (b : Backend) (t : TenantId) (s : SubjectId) (b' : Backend) (id : TokenId) : Prop :=
  ∃ r ∈ b.liveRecords t s, r.id = id ∧ b'.revocations.contains id = true ∧
    ∃ mark, b'.store.find? id = some { r with revokedAt := mark }

/-- From `b`, all that was done are steps towards revoking the tokens of the subject. -/
structure Nears (b : Backend) (t : TenantId) (s : SubjectId) (b' : Backend) : Prop where
  clock_le : b.clock ≤ b'.clock
  known : ∀ id, b.Agrees b' id ∨ b.Underway t s b' id

/-- They were all done. -/
structure Completes (b : Backend) (t : TenantId) (s : SubjectId) (b' : Backend) : Prop
    extends b.Nears t s b' where
  listed : ∀ r ∈ b.liveRecords t s, b'.revocations.contains r.id = true
  marked : ∀ r ∈ b.liveRecords t s, b'.store.isRevoked r.id = true

variable {b b' b'' x : Backend} {t : TenantId} {s : SubjectId} {id : TokenId} {r : TokenRecord}

theorem eq_of_mem_liveRecords {r r' : TokenRecord} (h : r ∈ b.liveRecords t s)
    (h' : r' ∈ b.liveRecords t s) (hid : r.id = r'.id) : r = r' := by
  have hr := (mem_liveRecords.1 h).1
  rw [hid, (mem_liveRecords.1 h').1] at hr
  exact (Option.some.inj hr).symm

/-! ### Steps -/

theorem Nears.refl (b : Backend) (t : TenantId) (s : SubjectId) : b.Nears t s b :=
  ⟨Instant.le_refl _, fun id => .inl (.refl b id)⟩

theorem Nears.clock (h : b.Nears t s x) {time : Instant} (hle : x.clock ≤ time) :
    b.Nears t s { x with clock := time } := by
  refine ⟨Instant.le_trans h.clock_le hle, fun id => ?_⟩
  rcases h.known id with hsame | hunder
  · exact .inl ⟨hsame.listed, hsame.record⟩
  · exact .inr hunder

/-- What a record was to be revoked for is not lost. -/
theorem Nears.record (h : b.Nears t s x) (hr : r ∈ b.liveRecords t s) :
    ∃ mark, x.store.find? r.id = some { r with revokedAt := mark } := by
  rcases h.known r.id with hsame | ⟨r', hr', hid', -, hmark⟩
  · exact ⟨r.revokedAt, hsame.record.trans (mem_liveRecords.1 hr).1⟩
  · obtain rfl := eq_of_mem_liveRecords hr' hr hid'
    exact hmark

/-- A record that is to be revoked is listed. -/
theorem Nears.add (h : b.Nears t s x) (hr : r ∈ b.liveRecords t s) (time : Instant) :
    b.Nears t s { x with revocations := (x.revocations.add r.id time).2 } := by
  refine ⟨h.clock_le, fun id => ?_⟩
  by_cases hid : id = r.id
  · subst hid
    exact .inr ⟨r, hr, rfl, by simp [RevocationList.contains_add], h.record hr⟩
  · rcases h.known id with hsame | ⟨r', hr', hid', hlisted, hmark⟩
    · exact .inl (hsame.trans (TokenManager.agrees_add x hid time))
    · refine .inr ⟨r', hr', hid', ?_, hmark⟩
      rw [RevocationList.contains_add, hlisted, Bool.or_true]

/-- A record that is listed already is marked. -/
theorem Nears.mark (h : b.Nears t s x) (hr : r ∈ b.liveRecords t s)
    (hlisted : x.revocations.contains r.id = true) (time : Instant) :
    b.Nears t s { x with store := (x.store.revoke s r.id time).2 } := by
  refine ⟨h.clock_le, fun id => ?_⟩
  by_cases hid : id = r.id
  · subst hid
    obtain ⟨mark, hrecord⟩ := h.record hr
    obtain ⟨mark', hmark'⟩ := TokenRecord.mark_eq { r with revokedAt := mark } time
    refine .inr ⟨r, hr, rfl, hlisted, some mark', ?_⟩
    rw [TokenStore.find?_revoke, hrecord, Option.map_some,
      if_pos ⟨rfl, (mem_liveRecords.1 hr).2.2.1⟩, hmark']
  · rcases h.known id with hsame | ⟨r', hr', hid', hlisted', mark, hmark⟩
    · exact .inl (hsame.trans (TokenManager.agrees_revoke x s hid time))
    · refine .inr ⟨r', hr', hid', hlisted', mark, ?_⟩
      rw [TokenStore.find?_revoke, hmark, Option.map_some, if_neg fun h => hid h.1]

theorem Nears.struck (h : b.Nears t s x) (hr : r ∈ b.liveRecords t s) (time : Instant) :
    b.Nears t s (TokenManager.struck x s time r) :=
  (h.add hr r.expiresAt).mark hr (by simp [RevocationList.contains_add]) time

/-- The record is that of its subject still, and so its revocation is not refused. -/
theorem Nears.owned (h : b.Nears t s x) (hr : r ∈ b.liveRecords t s) (time : Instant) :
    ∃ new, Backend.owned (x.store.revoke s r.id time).1 = .ok new := by
  obtain ⟨mark, hrecord⟩ := h.record hr
  rw [← (mem_liveRecords.1 hr).2.2.1]
  exact TokenManager.owned_revoke hrecord time

/-- What is still to be revoked later on was to be revoked before. -/
theorem Nears.live (h : b.Nears t s b') (hr : r ∈ b'.liveRecords t s) :
    r ∈ b.liveRecords t s := by
  obtain ⟨hfind, htenant, hsubject, hmark, hlive⟩ := mem_liveRecords.1 hr
  rcases h.known r.id with hsame | ⟨r', hr', -, -, mark, hrecord⟩
  · exact mem_liveRecords.2 ⟨hsame.record.symm.trans hfind, htenant, hsubject, hmark,
      Instant.lt_of_le_of_lt h.clock_le hlive⟩
  · obtain rfl := Option.some.inj (hfind.symm.trans hrecord)
    obtain rfl : mark = none := hmark
    have hsame : { r' with revokedAt := none } = r' := by
      rw [← (mem_liveRecords.1 hr').2.2.2.1]
    rw [hsame]
    exact hr'

theorem Nears.trans (h : b.Nears t s b') (h' : b'.Nears t s b'') : b.Nears t s b'' := by
  refine ⟨Instant.le_trans h.clock_le h'.clock_le, fun id => ?_⟩
  rcases h'.known id with hsame' | ⟨r, hr, hid, hlisted, hmark⟩
  · rcases h.known id with hsame | ⟨r, hr, hid, hlisted, mark, hrecord⟩
    · exact .inl (hsame.trans hsame')
    · exact .inr ⟨r, hr, hid, hsame'.listed.trans hlisted, mark, hsame'.record.trans hrecord⟩
  · exact .inr ⟨r, h.live hr, hid, hlisted, hmark⟩

/-! ### Calls over disturbed lines -/

/-- A question to which there is no untrue answer has its effect and its answer, or neither. -/
theorem respond_whole {q : Ask} (hq : q.lie? = none) (ended : Option Cancelled) (bound : Bool)
    (b : Backend) (ls : Lines) : ∃ ls',
    respond ended q bound (b, ls) = (some (b.answer q).1, ((b.answer q).2, ls')) ∨
    (∃ f x, q.failure? f = some x ∧ respond ended q bound (b, ls) = (some x, (b, ls'))) ∨
    respond ended q bound (b, ls) = (none, (b, ls')) := by
  have hfailed (f : CallFault) (ls' : Lines) :
      (∃ g x, q.failure? g = some x ∧ (q.failure? f, (b, ls')) = (some x, (b, ls'))) ∨
        (q.failure? f, (b, ls')) = (none, (b, ls')) := by
    cases hx : q.failure? f with
    | none => exact .inr rfl
    | some x => exact .inl ⟨f, x, hx, rfl⟩
  unfold respond
  simp only
  cases q.target? with
  | none => exact ⟨ls, .inl rfl⟩
  | some target =>
    refine ⟨(ls.call target).2, ?_⟩
    simp only
    cases (ls.call target).1 with
    | none => exact .inl rfl
    | some fault =>
      cases fault with
      | offline => exact .inr (hfailed _ _)
      | givenUp c => exact .inr (hfailed _ _)
      | hang =>
        cases (if bound then ended else none) with
        | none => exact .inr (.inr rfl)
        | some c => exact .inr (hfailed _ _)
      | lie => simp only [hq, true_or]

/-- A question whose failure ends the operation is answered and has its effect, or else nothing
happens any more and the operation does not succeed. -/
theorem run_ask {α : Type} {q : Ask} {bound : Bool} {ended : Option Cancelled} {ls ls' : Lines}
    {next : q.Answer → Procedure (Except TokenError α)} {o : Outcome (Except TokenError α)}
    (h : (Procedure.ask q bound next).run (respond ended) (b, ls) = (o, (b', ls')))
    (hq : q.lie? = none)
    (hnext : ∀ f x, q.failure? f = some x → ∃ e, next x = .done (.error e)) :
    (∃ ls₁, (next (b.answer q).1).run (respond ended) ((b.answer q).2, ls₁) = (o, (b', ls'))) ∨
      (b' = b ∧ ∀ a, o ≠ .done (.ok a)) := by
  rw [Procedure.run] at h
  obtain ⟨ls₁, he | ⟨f, x, hx, he⟩ | he⟩ := respond_whole hq ended bound b ls <;> rw [he] at h
  · exact .inl ⟨ls₁, h⟩
  · obtain ⟨e, hstop⟩ := hnext f x hx
    simp only [hstop] at h
    cases h
    exact .inr ⟨rfl, fun a ha => by cases ha⟩
  · cases h
    exact .inr ⟨rfl, fun a ha => by cases ha⟩

end Backend

namespace TokenManager

open Backend Relation

variable {m : TokenManager} {b b' b'' x x' : Backend} {t : TenantId} {s : SubjectId} {id : TokenId}
  {r : TokenRecord} {rs : List TokenRecord} {ended : Option Cancelled} {ls ls' : Lines} {n : Nat}
  {o : Outcome (Except TokenError Nat)}

theorem run_revokeEach_cons (s : SubjectId) (now : Instant) (r : TokenRecord)
    (rs : List TokenRecord) : (revokeEach s now (r :: rs)).run =
      .ask (.addRevocation r.id r.expiresAt) true fun
      | .error f => .done (.error (.ofRevocations f))
      | .ok new => .ask (.revokeRecord s r.id now) true fun
        | .error f => .done (.error (.ofStore f))
        | .ok _ => (revokeEach s now rs).run.bind fun
          | .error e => .done (.error e)
          | .ok n => .done (.ok (if new then n + 1 else n)) := by
  refine congrArg (Procedure.ask _ true) (funext fun added => ?_)
  cases added with
  | error f => rfl
  | ok new =>
    refine congrArg (Procedure.ask _ true) (funext fun marked => ?_)
    cases marked with
    | error f => rfl
    | ok b =>
      show (revokeEach s now rs).run.bind _ = (revokeEach s now rs).run.bind _
      refine congrArg (Procedure.bind _) (funext fun rest => ?_)
      cases rest <;> rfl

/-- The revocation of several records is broken off at the first, or the others follow. -/
theorem run_revokeEach {now : Instant} {new : Bool}
    (h : (revokeEach s now (r :: rs)).run.run (respond ended) (x, ls) = (o, (x', ls')))
    (hnew : owned (x.store.revoke s r.id now).1 = .ok new) :
    ((x' = x ∨ x' = { x with revocations := (x.revocations.add r.id r.expiresAt).2 }) ∧
      ∀ n, o ≠ .done (.ok n)) ∨
    ∃ o₁ ls₁, (revokeEach s now rs).run.run (respond ended) (struck x s now r, ls₁) =
        (o₁, (x', ls')) ∧
      o = o₁.map (Except.map fun n => if (x.revocations.add r.id r.expiresAt).1 then n + 1 else n) := by
  rw [run_revokeEach_cons] at h
  rcases run_ask h rfl (fun f y hy => ⟨_, by cases hy; rfl⟩) with ⟨ls₁, h⟩ | ⟨rfl, hnot⟩
  · simp only [answer] at h
    rcases run_ask h rfl (fun f y hy => ⟨_, by cases hy; rfl⟩) with ⟨ls₂, h⟩ | ⟨rfl, hnot⟩
    · simp only [answer, hnew] at h
      rw [Procedure.run_bind] at h
      rcases hrest : (revokeEach s now rs).run.run (respond ended) (struck x s now r, ls₂) with
        ⟨o₁, x₁, ls₃⟩
      simp only [struck] at hrest
      rw [hrest] at h
      refine .inr ⟨o₁, ls₂, ?_⟩
      rcases o₁ with (e | n) | _ | _ <;> cases h <;> exact ⟨hrest, rfl⟩
    · exact .inl ⟨.inr rfl, hnot⟩
  · exact .inl ⟨.inl rfl, hnot⟩

/-- However it ends, the revocation of records that are to be revoked is a step towards revoking
them all; if it succeeds, it ends as on a backend that never fails. -/
theorem nears_revokeEach (hx : b.Nears t s x) {now : Instant}
    (hrs : ∀ r ∈ rs, r ∈ b.liveRecords t s)
    (h : (revokeEach s now rs).run.run (respond ended) (x, ls) = (o, (x', ls'))) :
    b.Nears t s x' ∧ ∀ n, o = .done (.ok n) → x.exec (revokeEach s now rs) = (.done (.ok n), x') := by
  induction rs generalizing x ls o with
  | nil =>
    cases h
    refine ⟨hx, fun n hn => ?_⟩
    cases hn
    rfl
  | cons r rs ih =>
    have hr : r ∈ b.liveRecords t s := hrs r List.mem_cons_self
    obtain ⟨new, hnew⟩ := hx.owned hr now
    rcases run_revokeEach h hnew with ⟨hbroken, hnot⟩ | ⟨o₁, ls₁, hrest, rfl⟩
    · refine ⟨?_, fun n hn => absurd hn (hnot n)⟩
      rcases hbroken with rfl | rfl
      · exact hx
      · exact hx.add hr r.expiresAt
    · obtain ⟨hnears, hexec⟩ :=
        ih (hx.struck hr now) (fun r' hr' => hrs r' (List.mem_cons_of_mem _ hr')) hrest
      refine ⟨hnears, fun n hn => ?_⟩
      obtain ⟨result, rfl, hresult⟩ := Outcome.map_eq_done.1 hn
      obtain ⟨n', rfl, rfl⟩ := Except.map_eq_ok.1 hresult
      rw [exec_revokeEach_cons, hnew]
      simp only [hexec n' rfl]
      rfl

/-- On a backend that never fails, records that are to be revoked are revoked with success. -/
theorem exec_revokeEach_ok (hx : b.Nears t s x) (now : Instant)
    (hrs : ∀ r ∈ rs, r ∈ b.liveRecords t s) :
    ∃ n, (x.exec (revokeEach s now rs)).1 = .done (.ok n) := by
  induction rs generalizing x with
  | nil => exact ⟨0, rfl⟩
  | cons r rs ih =>
    have hr : r ∈ b.liveRecords t s := hrs r List.mem_cons_self
    obtain ⟨new, hnew⟩ := hx.owned hr now
    obtain ⟨n, hn⟩ := ih (hx.struck hr now) fun r' hr' => hrs r' (List.mem_cons_of_mem _ hr')
    rw [exec_revokeEach_cons, hnew]
    simp only [hn]
    exact ⟨_, rfl⟩

theorem isRevoked_struck (s : SubjectId) (time : Instant) (r : TokenRecord)
    (h : x.store.isRevoked id = true) : (struck x s time r).store.isRevoked id = true := by
  rw [TokenStore.isRevoked, Option.any_eq_true] at h ⊢
  obtain ⟨r', hr', hmark⟩ := h
  refine ⟨_, by rw [struck, TokenStore.find?_revoke, hr']; rfl, ?_⟩
  dsimp only
  split
  · exact r'.isRevoked_mark time
  · exact hmark

theorem isRevoked_revokeEach {now : Instant} (h : x.store.isRevoked id = true) :
    (x.exec (revokeEach s now rs)).2.store.isRevoked id = true := by
  induction rs generalizing x with
  | nil => exact h
  | cons r rs ih =>
    rw [exec_revokeEach_cons]
    cases owned (x.store.revoke s r.id now).1 with
    | error f => exact isRevoked_struck s now r h
    | ok new => exact ih (isRevoked_struck s now r h)

/-- Records that are to be revoked are marked. -/
theorem marked_of_revokeEach (hx : b.Nears t s x) {now : Instant}
    (hrs : ∀ r ∈ rs, r ∈ b.liveRecords t s) (hr : r ∈ rs) :
    (x.exec (revokeEach s now rs)).2.store.isRevoked r.id = true := by
  induction rs generalizing x with
  | nil => cases hr
  | cons r' rs ih =>
    have hr' : r' ∈ b.liveRecords t s := hrs r' List.mem_cons_self
    obtain ⟨new, hnew⟩ := hx.owned hr' now
    rw [exec_revokeEach_cons, hnew]
    rcases List.mem_cons.1 hr with rfl | hr
    · refine isRevoked_revokeEach ?_
      obtain ⟨mark, hrecord⟩ := hx.record hr'
      rw [TokenStore.isRevoked, struck, TokenStore.find?_revoke, hrecord, Option.map_some,
        if_pos ⟨rfl, (mem_liveRecords.1 hr').2.2.1⟩]
      exact TokenRecord.isRevoked_mark ..
    · exact ih (hx.struck hr' now) (fun r'' hr'' => hrs r'' (List.mem_cons_of_mem _ hr'')) hr

/-- The count is that of the records which the list did not name before. -/
theorem count_revokeEach {now : Instant} (hids : (rs.map (·.id)).Nodup)
    (h : (x.exec (revokeEach s now rs)).1 = .done (.ok n)) :
    n = (rs.filter fun r => !x.revocations.contains r.id).length := by
  induction rs generalizing x n with
  | nil =>
    cases h
    rfl
  | cons r rs ih =>
    obtain ⟨hother, hids⟩ := List.nodup_cons.1 hids
    rw [exec_revokeEach_cons] at h
    cases hnew : owned (x.store.revoke s r.id now).1 with
    | error f =>
      rw [hnew] at h
      cases h
    | ok new =>
      rw [hnew] at h
      obtain ⟨result, hresult, hn⟩ := Outcome.map_eq_done.1 h
      obtain ⟨n', rfl, rfl⟩ := Except.map_eq_ok.1 hn
      have hrest : (rs.filter fun r' => !(struck x s now r).revocations.contains r'.id) =
          rs.filter fun r' => !x.revocations.contains r'.id := by
        refine List.filter_congr fun r' hr' => ?_
        have hne : r'.id ≠ r.id := fun he => hother (List.mem_map.2 ⟨r', hr', he⟩)
        rw [struck, RevocationList.contains_add, decide_eq_false hne, Bool.false_or]
      rw [ih hids hresult, hrest, List.filter_cons, RevocationList.add_fst]
      cases x.revocations.contains r.id <;> rfl

/-- However a call ends, it is a step towards revoking all tokens of the subject; if it succeeds, it
ends as on a backend that never fails. -/
theorem nears_revokeAll (hstored : m.backing = .stored)
    (h : (m.revokeAll t s).run.run (respond ended) (b, ls) = (o, (b', ls'))) :
    b.Nears t s b' ∧ ∀ n, o = .done (.ok n) → b.exec (m.revokeAll t s) = (.done (.ok n), b') := by
  rw [exec_revokeAll hstored]
  rw [run_revokeAll_stored hstored] at h
  rcases run_ask h rfl (fun f y hy => nomatch hy) with ⟨ls₁, h⟩ | ⟨rfl, hnot⟩
  · rcases run_ask h rfl (fun f y hy => ⟨_, by cases hy; rfl⟩) with ⟨ls₂, h⟩ | ⟨rfl, hnot⟩
    · exact nears_revokeEach (.refl b t s) (fun r hr => hr) h
    · exact ⟨.refl _ t s, fun n hn => absurd hn (hnot n)⟩
  · exact ⟨.refl _ t s, fun n hn => absurd hn (hnot n)⟩

theorem exec_revokeAll_ok (hstored : m.backing = .stored) (t : TenantId) (s : SubjectId)
    (b : Backend) : ∃ n b', b.exec (m.revokeAll t s) = (.done (.ok n), b') := by
  rw [exec_revokeAll hstored]
  have hrs : ∀ r ∈ b.liveRecords t s, r ∈ b.liveRecords t s := fun r hr => hr
  obtain ⟨n, hn⟩ := exec_revokeEach_ok (.refl b t s) b.clock hrs
  exact ⟨n, _, Prod.ext hn rfl⟩

theorem completes_revokeAll (hstored : m.backing = .stored)
    (h : b.exec (m.revokeAll t s) = (.done (.ok n), b')) : b.Completes t s b' := by
  have hdirect : Lines.direct.Undisturbed := fun _ _ h => by cases h
  obtain ⟨ls, hrun⟩ := Procedure.run_undisturbed (m.revokeAll t s).run none (b := b) hdirect
  rw [show b.run (m.revokeAll t s).run = (.done (.ok n), b') from h] at hrun
  rw [exec_revokeAll hstored] at h
  refine ⟨(nears_revokeAll hstored hrun).1, fun r hr => ?_, fun r hr => ?_⟩
  · have hremembers := remembers_of_revokeEach (congrArg Prod.fst h) hr
    rw [h] at hremembers
    exact hremembers.contains
  · have hmarked :
        (b.exec (revokeEach s b.clock (b.liveRecords t s))).2.store.isRevoked r.id = true :=
      marked_of_revokeEach (.refl b t s) (fun r hr => hr) hr
    rw [h] at hmarked
    exact hmarked

/-! ### What tokens verify as -/

theorem exec_verify_stored (hstored : m.backing = .stored) (b : Backend) (value : String) :
    (b.exec (m.verify value)).1 = .done (.ok (
      if OpaqueValue.isWellFormed value then
        match b.store.find? (OpaqueValue.id m.primitives value) with
        | none => .error .notFound
        | some r =>
          if r.expiresAt ≤ b.clock then .error .expired
          else if m.revoked b (OpaqueValue.id m.primitives value) then .error .revoked
          else if r.claims.hasScope then .ok ⟨r.claims, r.details⟩
          else .error .missingScope
      else .error .malformed)) := by
  rw [exec_verify, verdict]
  by_cases hform : OpaqueValue.isWellFormed value = true
  · rw [if_pos hform]
    cases h : b.store.find? (OpaqueValue.id m.primitives value) with
    | none => simp only [found, hstored, hform, h, if_true]
    | some r =>
      rw [found_of_find? hstored hform h]
      simp only [revoked, hasStore, hstored, Bool.true_and, TokenStore.isRevoked, h, Option.any_some,
        TokenRecord.details, TokenStore.id_of_find? h]
  · simp only [found, hstored, hform, if_false, Bool.false_eq_true]

theorem verify_ok_iff (hstored : m.backing = .stored) {value : String} {v : Verified} :
    (b.exec (m.verify value)).1 = .done (.ok (.ok v)) ↔
      OpaqueValue.isWellFormed value = true ∧
        ∃ r, b.store.find? (OpaqueValue.id m.primitives value) = some r ∧ b.clock < r.expiresAt ∧
          m.revoked b (OpaqueValue.id m.primitives value) = false ∧ r.claims.hasScope = true ∧
          ⟨r.claims, r.details⟩ = v := by
  rw [exec_verify_stored hstored, ← Bool.not_eq_true]
  simp only [← Instant.not_le]
  split
  · cases b.store.find? (OpaqueValue.id m.primitives value) with
    | none => simp
    | some r => grind
  · simp_all

end TokenManager

namespace Backend

variable {m : TokenManager} {b b' b'' b₁ : Backend} {t : TenantId} {s : SubjectId} {id : TokenId}

/-- Records are kept as they were, up to their marks, and none is added. -/
theorem Nears.kept (h : b.Nears t s b') (id : TokenId) :
    (b.store.find? id = none ∧ b'.store.find? id = none) ∨
      ∃ r mark, b.store.find? id = some r ∧ b'.store.find? id = some { r with revokedAt := mark } := by
  rcases h.known id with hsame | ⟨r, hr, rfl, -, mark, hrecord⟩
  · cases hfind : b.store.find? id with
    | none => exact .inl ⟨rfl, hsame.record.trans hfind⟩
    | some r => exact .inr ⟨r, r.revokedAt, rfl, hsame.record.trans hfind⟩
  · exact .inr ⟨r, mark, (mem_liveRecords.1 hr).1, hrecord⟩

theorem Nears.revoked (h : b.Nears t s b') (hrevoked : m.revoked b id = true) :
    m.revoked b' id = true := by
  rcases h.known id with hsame | ⟨-, -, -, hlisted, -⟩
  · rw [hsame.revoked m]
    exact hrevoked
  · rw [TokenManager.revoked, hlisted, Bool.or_true]

/-- What does not verify does not verify after further steps. -/
theorem Nears.invalid (hstored : m.backing = .stored) (h : b.Nears t s b') {time : Instant}
    {value : String} {v : Verified}
    (hvalid : ({ b' with clock := time }.exec (m.verify value)).1 = .done (.ok (.ok v))) :
    ({ b with clock := time }.exec (m.verify value)).1 = .done (.ok (.ok v)) := by
  rw [TokenManager.verify_ok_iff hstored] at hvalid ⊢
  obtain ⟨hform, r', hr', hlive, hclean, hscope, hv⟩ := hvalid
  rcases h.kept (OpaqueValue.id m.primitives value) with ⟨-, hnone⟩ | ⟨r, mark, hr, hrecord⟩
  · rw [hnone] at hr'
    cases hr'
  · obtain rfl := Option.some.inj (hrecord.symm.trans hr')
    refine ⟨hform, r, hr, hlive, Bool.eq_false_iff.2 fun hrevoked => ?_, hscope, hv⟩
    exact Bool.eq_false_iff.1 hclean (h.revoked hrevoked)

/-- What verification says is settled by which of the unexpired tokens are revoked. -/
theorem Nears.verify_eq (hstored : m.backing = .stored) (h : b.Nears t s b') (h₁ : b.Nears t s b₁)
    (time : Instant) (value : String)
    (hrevoked : ∀ r, b.store.find? (OpaqueValue.id m.primitives value) = some r →
      time < r.expiresAt → m.revoked b' (OpaqueValue.id m.primitives value) =
        m.revoked b₁ (OpaqueValue.id m.primitives value)) :
    ({ b' with clock := time }.exec (m.verify value)).1 =
      ({ b₁ with clock := time }.exec (m.verify value)).1 := by
  rw [TokenManager.exec_verify_stored hstored, TokenManager.exec_verify_stored hstored]
  rcases h.kept (OpaqueValue.id m.primitives value) with ⟨hnone, hnone'⟩ | ⟨r, mark, hr, hr'⟩
  · rcases h₁.kept (OpaqueValue.id m.primitives value) with ⟨-, hnone₁⟩ | ⟨r, mark, hr, -⟩
    · simp only [hnone', hnone₁]
    · rw [hnone] at hr
      cases hr
  · rcases h₁.kept (OpaqueValue.id m.primitives value) with ⟨hnone, -⟩ | ⟨r₁, mark₁, hr₁, hr₁'⟩
    · rw [hnone] at hr
      cases hr
    · obtain rfl := Option.some.inj (hr.symm.trans hr₁)
      simp only [hr', hr₁', TokenRecord.details]
      by_cases hexpired : r.expiresAt ≤ time
      · rw [if_pos hexpired, if_pos hexpired]
      · have hsame : m.revoked { b' with clock := time } (OpaqueValue.id m.primitives value) =
            m.revoked { b₁ with clock := time } (OpaqueValue.id m.primitives value) :=
          hrevoked r hr (Instant.not_le.1 hexpired)
        rw [if_neg hexpired, if_neg hexpired, hsame]

/-- After a complete call, every unexpired record of the subject has a mark. -/
theorem Completes.marked_of_mem_list (h : b.Completes t s b') {r : TokenRecord}
    (hr : r ∈ b.store.list t s) (hlive : b.clock < r.expiresAt) :
    ∃ mark, b'.store.find? r.id = some { r with revokedAt := some mark } := by
  obtain ⟨⟨id, hfind⟩, htenant, hsubject⟩ := TokenStore.mem_list.1 hr
  obtain rfl := TokenStore.id_of_find? hfind
  cases hmark : r.revokedAt with
  | none =>
    have hr : r ∈ b.liveRecords t s :=
      mem_liveRecords.2 ⟨hfind, htenant, hsubject, hmark, hlive⟩
    have hmarked := h.marked r hr
    obtain ⟨mark, hrecord⟩ := h.record hr
    rw [TokenStore.isRevoked, hrecord] at hmarked
    obtain ⟨time, rfl⟩ := Option.isSome_iff_exists.1 hmarked
    exact ⟨time, hrecord⟩
  | some time =>
    rcases h.known r.id with hsame | ⟨r', hr', hid, -⟩
    · refine ⟨time, ?_⟩
      rw [hsame.record, hfind, ← hmark]
    · obtain ⟨hfind', -, -, hnone, -⟩ := mem_liveRecords.1 hr'
      rw [hid, hfind] at hfind'
      obtain rfl := Option.some.inj hfind'
      rw [hmark] at hnone
      cases hnone

/-- A complete call after any steps has revoked what a complete call would have at first, if that has
not expired meanwhile. -/
theorem Nears.revoked_eq (hstored : m.backing = .stored) (h : b.Nears t s b')
    (h' : b'.Completes t s b'') (h₁ : b.Completes t s b₁)
    (hlive : ∀ r ∈ b.liveRecords t s, r.id = id → b'.clock < r.expiresAt) :
    m.revoked b'' id = m.revoked b₁ id := by
  rw [Bool.eq_iff_iff]
  constructor
  · intro hrevoked
    rcases (h.trans h'.toNears).known id with hsame | ⟨r, hr, rfl, -⟩
    · rw [hsame.revoked m] at hrevoked
      exact h₁.revoked hrevoked
    · rw [TokenManager.revoked, h₁.listed r hr, Bool.or_true]
  · intro hrevoked
    rcases h₁.known id with hsame | ⟨r, hr, rfl, -⟩
    · rw [hsame.revoked m] at hrevoked
      exact h'.revoked (h.revoked hrevoked)
    · obtain ⟨mark, hmark⟩ := h.record hr
      cases mark with
      | none =>
        -- The record has no mark yet, so that it is still to be revoked.
        obtain ⟨-, htenant, hsubject, hnone, -⟩ := mem_liveRecords.1 hr
        have hsame : { r with revokedAt := none } = r := by rw [← hnone]
        have hr' : r ∈ b'.liveRecords t s :=
          mem_liveRecords.2 ⟨hsame ▸ hmark, htenant, hsubject, hnone, hlive r hr rfl⟩
        rw [TokenManager.revoked, h'.listed r hr', Bool.or_true]
      | some time =>
        refine h'.revoked ?_
        rw [TokenManager.revoked, TokenManager.hasStore, hstored, TokenStore.isRevoked, hmark]
        rfl

end Backend

namespace TokenManager

open Backend Relation

variable {m : TokenManager} {b b' b'' : Backend} {t : TenantId} {s : SubjectId}
  {ended : Option Cancelled} {ls ls' : Lines} {o : Outcome (Except TokenError Nat)}

/-- A call that revokes all tokens of a subject, over any lines and however it ends, or time that
passes. -/
inductive Attempt (m : TokenManager) (t : TenantId) (s : SubjectId) : Backend → Backend → Prop
  | call {b b' : Backend} {ended : Option Cancelled} {ls ls' : Lines}
    {o : Outcome (Except TokenError Nat)}
    (h : (m.revokeAll t s).run.run (respond ended) (b, ls) = (o, (b', ls'))) : Attempt m t s b b'
  | clock {b : Backend} {time : Instant} (hle : b.clock ≤ time) :
    Attempt m t s b { b with clock := time }

theorem Attempt.nears (hstored : m.backing = .stored) (h : m.Attempt t s b b') :
    b.Nears t s b' := by
  cases h with
  | call h => exact (nears_revokeAll hstored h).1
  | clock hle => exact (Nears.refl b t s).clock hle

theorem nears_attempts (hstored : m.backing = .stored) (h : ReflTransGen (m.Attempt t s) b b') :
    b.Nears t s b' := by
  induction h with
  | refl => exact .refl b t s
  | tail _ h ih => exact ih.trans (h.nears hstored)

/-- Whatever backend a call that revokes all tokens of a subject starts on, whatever breaks it off and
however often: the tokens of others are left alone and what was invalid stays so. Once a call
succeeds, which it does when nothing is disturbed, it has counted the live records that were not on
the list; every unexpired token of the subject is revoked; and tokens verify, whenever they are asked
about, as after a single call at the start that was not disturbed. -/
theorem revokeAll_resumes (hstored : m.backing = .stored)
    (hbefore : ReflTransGen (m.Attempt t s) b b')
    (hcall : (m.revokeAll t s).run.run (respond ended) (b', ls) = (o, (b'', ls'))) :
    (∀ id, (∀ r, b'.store.find? id = some r → ¬(r.tenant = t ∧ r.subject = s)) → b'.Agrees b'' id) ∧
    (∀ value time, (∀ v, ({ b' with clock := time }.exec (m.verify value)).1 ≠ .done (.ok (.ok v))) →
      ∀ v, ({ b'' with clock := time }.exec (m.verify value)).1 ≠ .done (.ok (.ok v))) ∧
    (ls.Undisturbed → ∃ n, o = .done (.ok n)) ∧
    ∀ n, o = .done (.ok n) →
      n = ((b'.liveRecords t s).filter fun r => !b'.revocations.contains r.id).length ∧
      (∀ r ∈ b'.store.list t s, b'.clock < r.expiresAt →
        (∃ mark, b''.store.find? r.id = some { r with revokedAt := some mark }) ∧
        ∀ value, OpaqueValue.isWellFormed value = true → OpaqueValue.id m.primitives value = r.id →
        ∀ time, time < r.expiresAt →
          ({ b'' with clock := time }.exec (m.verify value)).1 = .done (.ok (.error .revoked))) ∧
      ∃ n₁ b₁, b.exec (m.revokeAll t s) = (.done (.ok n₁), b₁) ∧
        (∀ id, (∀ r, b.store.find? id = some r → b'.clock < r.expiresAt) →
          m.revoked b'' id = m.revoked b₁ id) ∧
        ∀ value time, b'.clock ≤ time →
          ({ b'' with clock := time }.exec (m.verify value)).1 =
            ({ b₁ with clock := time }.exec (m.verify value)).1 := by
  have hnears := nears_attempts hstored hbefore
  obtain ⟨hstep, hexec⟩ := nears_revokeAll hstored hcall
  refine ⟨fun id hother => ?_, fun value time hinvalid v hvalid => ?_, fun hls => ?_, ?_⟩
  · rcases hstep.known id with hsame | ⟨r, hr, rfl, -⟩
    · exact hsame
    · obtain ⟨hfind, htenant, hsubject, -⟩ := mem_liveRecords.1 hr
      exact absurd ⟨htenant, hsubject⟩ (hother r hfind)
  · exact hinvalid v (hstep.invalid hstored hvalid)
  · obtain ⟨n, b₁, hok⟩ := exec_revokeAll_ok hstored t s b'
    obtain ⟨ls₁, hrun⟩ := Procedure.run_undisturbed (m.revokeAll t s).run ended (b := b') hls
    rw [hcall, show b'.run (m.revokeAll t s).run = (.done (.ok n), b₁) from hok] at hrun
    exact ⟨n, congrArg Prod.fst hrun⟩
  · rintro n rfl
    have hok := hexec n rfl
    have hcompletes := completes_revokeAll hstored hok
    refine ⟨?_, fun r hr hlive => ?_, ?_⟩
    · rw [exec_revokeAll hstored] at hok
      have hids : ((b'.liveRecords t s).map (·.id)).Nodup :=
        (b'.store.nodup_ids t s).sublist (List.filter_sublist.map _)
      exact count_revokeEach hids (congrArg Prod.fst hok)
    · obtain ⟨mark, hmark⟩ := hcompletes.marked_of_mem_list hr hlive
      refine ⟨⟨mark, hmark⟩, fun value hform hid time htime => ?_⟩
      have hrevoked : m.revoked { b'' with clock := time } r.id = true := by
        rw [revoked, hasStore, hstored, TokenStore.isRevoked, hmark]
        rfl
      rw [exec_verify_stored hstored, if_pos hform, hid]
      simp only [hmark, if_neg (Instant.not_le.2 htime), hrevoked, if_true]
    · obtain ⟨n₁, b₁, hok₁⟩ := exec_revokeAll_ok hstored t s b
      have hcompletes₁ := completes_revokeAll hstored hok₁
      refine ⟨n₁, b₁, hok₁, fun id hlive => ?_, fun value time hle => ?_⟩
      · exact hnears.revoked_eq hstored hcompletes hcompletes₁ fun r hr hid =>
          hlive r (hid ▸ (mem_liveRecords.1 hr).1)
      · refine (hnears.trans hstep).verify_eq hstored hcompletes₁.toNears time value
          fun r hr hlive => ?_
        refine hnears.revoked_eq hstored hcompletes hcompletes₁ fun r' hr' hid => ?_
        obtain rfl := Option.some.inj (hr.symm.trans (hid ▸ (mem_liveRecords.1 hr').1))
        exact Instant.lt_of_le_of_lt hle hlive

end TokenManager

namespace Sample

def logOut : Procedure (Except TokenError Nat) :=
  ((manager .standard).revokeAll ⟨"acme"⟩ ⟨"alice"⟩).run

/-- The next record is not marked. -/
def markOutage : Lines :=
  (Lines.of [.storeRevoke]).plan .storeRevoke (some ⟨.offline, 0, some 1⟩)

/-- A call is broken off once the token is listed. -/
def halfRevoked : Backend :=
  (logOut.run (Backend.respond none) (issued .standard .refresh, markOutage)).2.1

def loggedOut : Backend := (logOut.run (Backend.respond none) (halfRevoked, .direct)).2.1

theorem liveRecords_issued (p : Primitives) : (issued p .refresh).liveRecords ⟨"acme"⟩ ⟨"alice"⟩ =
    [(token p .refresh).record claims] := by
  have hrecord : (issued p .refresh).store.list ⟨"acme"⟩ ⟨"alice"⟩ =
      List.mergeSort [(token p .refresh).record claims] _ := rfl
  rw [Backend.liveRecords, hrecord, List.mergeSort_singleton]
  rfl

theorem run_logOut : logOut.run (Backend.respond none) (issued .standard .refresh, markOutage) =
    (TokenManager.revokeEach ⟨"alice"⟩ (issued .standard .refresh).clock
      [(token .standard .refresh).record claims]).run.run (Backend.respond none)
        (issued .standard .refresh, markOutage) := by
  rw [← liveRecords_issued, logOut, TokenManager.run_revokeAll_stored rfl]
  rfl

theorem halfRevoked_eq : halfRevoked =
    { issued .standard .refresh with
      revocations := (RevocationList.empty.add (token .standard .refresh).id
        (token .standard .refresh).expiresAt).2 } := by
  rw [halfRevoked, run_logOut]
  rfl

end Sample

open Sample in
theorem TokenManager.logged_out_after_outage :
    (logOut.run (Backend.respond none) (issued .standard .refresh, markOutage)).1 =
        .done (.error (.ofStore (.unavailable "store.revoke offline"))) ∧
      (logOut.run (Backend.respond none) (halfRevoked, .direct)).1 = .done (.ok 0) ∧
      (loggedOut.exec ((manager .standard).verify (token .standard .refresh).value)).1 =
        .done (.ok (.error .revoked)) := by
  have hfirst : logOut.run (Backend.respond none) (issued .standard .refresh, markOutage) =
      (_, (halfRevoked, _)) := rfl
  have hsecond : logOut.run (Backend.respond none) (halfRevoked, .direct) =
      (_, (loggedOut, _)) := rfl
  obtain ⟨-, -, hok, hdone⟩ := revokeAll_resumes rfl (.single (.call hfirst)) hsecond
  obtain ⟨n, hn⟩ := hok fun _ _ h => by cases h
  obtain ⟨hcount, hrevoked, -⟩ := hdone n hn
  have hlive : halfRevoked.liveRecords ⟨"acme"⟩ ⟨"alice"⟩ =
      [(token .standard .refresh).record claims] := by
    rw [halfRevoked_eq]
    exact liveRecords_issued .standard
  have hlisted : halfRevoked.revocations.contains (token .standard .refresh).id = true := by
    rw [halfRevoked_eq]
    simp [RevocationList.contains_add]
  have hnone : n = 0 := by
    rw [hcount, hlive]
    simp [Token.record, hlisted]
  have hclock : loggedOut.clock = ⟨1700000000, 0⟩ :=
    (Procedure.run_clock ..).trans (Procedure.run_clock ..)
  have hmem : (token .standard .refresh).record claims ∈
      halfRevoked.store.list ⟨"acme"⟩ ⟨"alice"⟩ := by
    have hmem := hlive ▸ List.mem_singleton_self _
    exact (List.mem_filter.1 hmem).1
  obtain ⟨-, hverify⟩ := hrevoked _ hmem (by rw [halfRevoked_eq]; decide)
  refine ⟨by rw [run_logOut]; rfl, hnone ▸ hn, ?_⟩
  exact hverify (token .standard .refresh).value (isWellFormed_value ..) rfl loggedOut.clock
    (by rw [hclock]; decide)

end AccessControl
