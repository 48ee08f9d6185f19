import AccessControl.Proofs.Token.Issued

/-!
# Revocation is permanent

Once a token was revoked, rotated or covered by the revocation of all tokens of its subject, it
never verifies again, and is reported as revoked until it expires (`rejected_after_end`). What
carries this through sweeps is `Ended`: the entry on the revocation list lasts at least as long as
the token, and the record of a marked token is kept as long.
-/

namespace AccessControl

/-- The events after which a token must not verify again. -/
inductive TokenEvent.Ends (t : Token) : TokenEvent → Prop
  | revoked : Ends t (.served (.revoke t.value) (.done (.revoked (.ok ()))))
  | rotated (p : TokenPair) : Ends t (.served (.refresh t.value) (.done (.pair (.ok p))))
  /-- All tokens of the subject that the token names were revoked in its tenant. -/
  | revokedAll {s : SubjectId} (n : Nat) (hs : t.metadata.get? "subject_id" = some s.text) :
    Ends t (.served (.revokeAll t.tenant s) (.done (.count (.ok n))))

namespace TokenManager

open Backend

variable {m : TokenManager} {b b' : Backend} {t : Token}

/-- What keeps a token from verifying. -/
inductive Barred (m : TokenManager) (b : Backend) (t : Token) : Prop
  | expired (h : t.expiresAt ≤ b.clock)
  | listed (h : b.revocations.Remembers t.id t.expiresAt)
  | marked (hstored : m.backing = .stored) (h : ∃ r, b.store.find? t.id = some r ∧ r.isRevoked)

/-- A token that was issued, can be read, and must not verify again. -/
structure Ended (m : TokenManager) (b : Backend) (t : Token) : Prop where
  issued : m.Issued b t
  reads : ∀ k, m.backing = .signed k → ∃ v, k.decode t.value = .ok v
  barred : m.Barred b t

/-! ### What requests preserve -/

theorem Barred.change (hb : m.Barred b t) (hi : m.Issued b t) (h : m.Change b b')
    (hfresh : b.supply.Fresh m.primitives b'.drawn) : m.Barred b' t := by
  cases hb with
  | expired hexpired => exact .expired (Instant.le_trans hexpired h.clock_le)
  | listed hlisted =>
    cases h with
    | revoke id time => exact .listed (hlisted.add id time)
    | sweepRevocations =>
      obtain ⟨time, hentry, hle⟩ := hlisted
      by_cases hlive : b.clock < time
      · refine .listed ⟨time, ?_, hle⟩
        rw [RevocationList.expiry?_cleanup, hentry]
        simpa using hlive
      · exact .expired (Instant.le_trans hle (Instant.not_lt.1 hlive))
    | _ => exact .listed hlisted
  | marked hstored hmarked =>
    obtain ⟨r, hr, hmark⟩ := hmarked
    cases h with
    | record _ hid =>
      have hne := hi.ne_drawn hstored (Nat.lt_succ_self _) hfresh
      refine .marked hstored ⟨r, ?_, hmark⟩
      rw [TokenStore.find?_insert, hid, if_neg hne, hr]
    | mark s id time =>
      have hfind := TokenStore.find?_revoke b.store s id t.id time
      rw [hr, Option.map_some] at hfind
      refine .marked hstored ⟨_, hfind, ?_⟩
      split
      · exact r.isRevoked_mark time
      · exact hmark
    | sweepRecords =>
      by_cases hlive : r.expiresAt ≤ b.clock
      · exact .expired ((hi.record hstored r hr).expiresAt ▸ hlive)
      · refine .marked hstored ⟨r, ?_, hmark⟩
        rw [TokenStore.find?_cleanup, hr]
        simpa [TokenRecord.isExpired] using hlive
    | _ => exact .marked hstored ⟨r, hr, hmark⟩

theorem Ended.changes (he : m.Ended b t) (h : m.Changes b b')
    (hfresh : b.supply.Fresh m.primitives b'.drawn) : m.Ended b' t := by
  induction h with
  | refl => exact he
  | @tail b₁ b₂ hs h ih =>
    have hended := ih (hfresh.mono h.drawn_le)
    have hfresh' : b₁.supply.Fresh m.primitives b₂.drawn := by
      rw [Changes.supply_eq hs]
      exact hfresh
    exact ⟨hended.issued.change h hfresh', hended.reads, hended.barred.change hended.issued h hfresh'⟩

/-! ### What verification says -/

theorem Issued.found {v : Verified} {marked : Bool} (hi : m.Issued b t)
    (h : m.found b t.value = .ok (v, marked)) :
    v.details.id = t.id ∧ v.details.expiresAt = t.expiresAt := by
  unfold TokenManager.found at h
  cases hbacking : m.backing with
  | signed k =>
    obtain ⟨c, hvalue⟩ := hi.signed k hbacking
    simp only [hbacking, hvalue] at h
    cases hd : k.decode (k.encode c t.details) with
    | error f => simp [hd, Except.map] at h
    | ok v' =>
      rw [hd] at h
      obtain ⟨rfl, -⟩ := Prod.mk.inj (Except.ok.inj h)
      obtain ⟨hid, -, hexpires⟩ := SignedCodec.details_of_decode_encode hi.whole hi.exact hd
      exact ⟨hid, hexpires⟩
  | stored =>
    simp only [hbacking, ← hi.named hbacking] at h
    split at h
    · split at h
      · cases h
      next r hr =>
        obtain ⟨rfl, -⟩ := Prod.mk.inj (Except.ok.inj h)
        exact ⟨(hi.record hbacking r hr).id, (hi.record hbacking r hr).expiresAt⟩
    · cases h

/-- Until it expires, a value that was issued and can be read is found. -/
theorem Ended.found (he : m.Ended b t) (hfresh : b.supply.Fresh m.primitives b.drawn)
    (hlive : b.clock < t.expiresAt) :
    ∃ v marked, m.found b t.value = .ok (v, marked) ∧
      (marked = true ∨ b.revocations.contains t.id = true) := by
  cases hbacking : m.backing with
  | signed k =>
    obtain ⟨v, hv⟩ := he.reads k hbacking
    refine ⟨v, false, found_of_decode hbacking hv, .inr ?_⟩
    cases he.barred with
    | expired h => exact absurd hlive (Instant.not_lt.2 h)
    | listed h => exact h.contains
    | marked hstored => rw [hbacking] at hstored; cases hstored
  | stored =>
    obtain ⟨n, hn, hvalue⟩ := he.issued.drawn hbacking
    have hform : OpaqueValue.isWellFormed t.value = true := hvalue ▸ hfresh.wellFormed n hn
    obtain ⟨r, hr⟩ := he.issued.kept hbacking hlive
    refine ⟨_, _, found_of_find? hbacking hform (he.issued.named hbacking ▸ hr), ?_⟩
    cases he.barred with
    | expired h => exact absurd hlive (Instant.not_lt.2 h)
    | listed h => exact .inr h.contains
    | marked _ h =>
      obtain ⟨r', hr', hmark⟩ := h
      rw [hr] at hr'
      obtain rfl := Option.some.inj hr'
      exact .inl hmark

theorem Ended.verdict (he : m.Ended b t) (hfresh : b.supply.Fresh m.primitives b.drawn) :
    ∃ f, m.verdict b t.value = .error f ∧ (b.clock < t.expiresAt → f = .revoked) := by
  unfold TokenManager.verdict
  by_cases hlive : b.clock < t.expiresAt
  · obtain ⟨v, marked, hfound, hrevoked⟩ := he.found hfresh hlive
    obtain ⟨hid, hexpires⟩ := he.issued.found hfound
    refine ⟨.revoked, ?_, fun _ => rfl⟩
    rw [hfound]
    simp only
    rw [hexpires, if_neg (Instant.not_le.2 hlive), hid, if_pos (by simpa using hrevoked)]
  · cases hfound : m.found b t.value with
    | error f => exact ⟨f, rfl, fun h => absurd h hlive⟩
    | ok found =>
      obtain ⟨v, marked⟩ := found
      obtain ⟨-, hexpires⟩ := he.issued.found hfound
      refine ⟨.expired, ?_, fun h => absurd h hlive⟩
      simp only
      rw [hexpires, if_pos (Instant.not_lt.1 hlive)]

/-! ### What ends a token -/

theorem reads_of_found {value : String} {v : Verified} {marked : Bool}
    (h : m.found b value = .ok (v, marked)) (k : SignedCodec) (hk : m.backing = .signed k) :
    ∃ v, k.decode value = .ok v := by
  simp only [TokenManager.found, hk] at h
  cases hd : k.decode value with
  | error f => simp [hd, Except.map] at h
  | ok v => exact ⟨v, rfl⟩

theorem Issued.barred_of_found (hi : m.Issued b t) {v : Verified} {marked : Bool}
    (h : m.found b t.value = .ok (v, marked)) (l : RevocationList) :
    (l.add v.details.id v.details.expiresAt).2.Remembers t.id t.expiresAt := by
  obtain ⟨hid, hexpires⟩ := hi.found h
  rw [hid, hexpires]
  exact RevocationList.remembers_add ..

theorem Revokes.ended {o : Outcome (Except TokenError Unit)} (h : m.Revokes t.value b o b')
    (hok : o = .done (.ok ())) (hi : m.Issued b t) (hi' : m.Issued b' t)
    (hfresh : b.supply.Fresh m.primitives b.drawn) : m.Ended b' t := by
  cases h with
  | rejected h => cases hok
  | unknown hbacking h =>
    refine ⟨hi', fun k hk => ?_, .expired (Instant.not_lt.1 fun hlive => ?_)⟩
    · rw [hbacking] at hk
      cases hk
    · obtain ⟨n, hn, hvalue⟩ := hi.drawn hbacking
      have hform : OpaqueValue.isWellFormed t.value = true := hvalue ▸ hfresh.wellFormed n hn
      obtain ⟨r, hr⟩ := hi.kept hbacking hlive
      rw [found_of_find? hbacking hform (hi.named hbacking ▸ hr)] at h
      cases h
  | expired h hexpired =>
    exact ⟨hi', reads_of_found h, .expired ((hi.found h).2 ▸ hexpired)⟩
  | @signed k v hbacking h =>
    have hfound : m.found b t.value = .ok (v, false) := found_of_decode hbacking h
    exact ⟨hi', reads_of_found hfound, .listed (hi.barred_of_found hfound _)⟩
  | @stored r hbacking h =>
    refine ⟨hi', fun k hk => ?_, .listed ?_⟩
    · rw [hbacking] at hk
      cases hk
    · rw [← hi.named hbacking] at h
      rw [← hi.named hbacking, ← (hi.record hbacking r h).expiresAt]
      exact RevocationList.remembers_add ..

theorem Rotates.ended {o : Outcome (Except TokenError TokenPair)} {pair : TokenPair}
    (h : m.Rotates t.value b o b') (hok : o = .done (.ok pair)) (hi : m.Issued b t)
    (hi' : m.Issued b' t) : m.Ended b' t := by
  cases h with
  | rotated h =>
    have hfound := (verdict_ok h).1
    exact ⟨hi', reads_of_found hfound, .listed (hi.barred_of_found hfound _)⟩
  | _ => cases hok

theorem remembers_revokeEach {subject : SubjectId} {now time : Instant} {id : TokenId}
    {rs : List TokenRecord} (h : b.revocations.Remembers id time) :
    (b.exec (revokeEach subject now rs)).2.revocations.Remembers id time := by
  induction rs generalizing b with
  | nil => exact h
  | cons r rs ih =>
    have hstruck : (struck b subject now r).revocations.Remembers id time := h.add r.id r.expiresAt
    rw [exec_revokeEach_cons]
    cases owned (b.store.revoke subject r.id now).1 with
    | error f => exact hstruck
    | ok new => exact ih hstruck

/-- Revoking several records with success remembers each of them until it expires. -/
theorem remembers_of_revokeEach {subject : SubjectId} {now : Instant} {rs : List TokenRecord}
    {n : Nat} (h : (b.exec (revokeEach subject now rs)).1 = .done (.ok n)) {r : TokenRecord}
    (hr : r ∈ rs) :
    (b.exec (revokeEach subject now rs)).2.revocations.Remembers r.id r.expiresAt := by
  induction rs generalizing b n with
  | nil => cases hr
  | cons r' rs ih =>
    rw [exec_revokeEach_cons] at h ⊢
    cases ho : owned (b.store.revoke subject r'.id now).1 with
    | error f =>
      rw [ho] at h
      cases h
    | ok new =>
      rw [ho] at h
      obtain ⟨rest, hrest, hn⟩ := Outcome.map_eq_done.1 h
      cases rest with
      | error f => cases hn
      | ok n' =>
        rcases List.mem_cons.1 hr with rfl | hr
        · exact remembers_revokeEach (RevocationList.remembers_add ..)
        · exact ih hrest hr

theorem ended_revokeAll {s : SubjectId} {n : Nat} (hs : t.metadata.get? "subject_id" = some s.text)
    (h : (b.exec (m.revokeAll t.tenant s)).1 = .done (.ok n)) (hi : m.Issued b t)
    (hfresh : b.supply.Fresh m.primitives (b.exec (m.revokeAll t.tenant s)).2.drawn) :
    m.Ended (b.exec (m.revokeAll t.tenant s)).2 t := by
  have hchanges := changes_revokeAll m t.tenant s b
  have hi' := hi.changes hchanges hfresh
  cases hbacking : m.backing with
  | signed k =>
    rw [revokeAll, hbacking] at h
    cases h
  | stored =>
    have hreads : ∀ k, m.backing = .signed k → ∃ v, k.decode t.value = .ok v := fun k hk => by
      rw [hbacking] at hk
      cases hk
    by_cases hlive : b.clock < t.expiresAt
    · obtain ⟨r, hr⟩ := hi.kept hbacking hlive
      have hof := hi.record hbacking r hr
      by_cases hmark : r.isRevoked
      · have hended : m.Ended b t := ⟨hi, hreads, .marked hbacking ⟨r, hr, hmark⟩⟩
        exact hended.changes hchanges hfresh
      · have hsubject : r.subject = s := by
          have htext := Option.some.inj (hof.subject.symm.trans hs)
          exact congrArg Id.mk htext
        have hmem : r ∈ b.liveRecords t.tenant s := by
          refine List.mem_filter.2 ⟨TokenStore.mem_list.2 ⟨⟨_, hr⟩, hof.tenant, hsubject⟩, ?_⟩
          simp only [TokenRecord.isLive, hmark, TokenRecord.isExpired, hof.expiresAt,
            Instant.not_le.2 hlive, decide_false, Bool.not_false, Bool.and_self]
        refine ⟨hi', hreads, .listed ?_⟩
        rw [← hof.id, ← hof.expiresAt, exec_revokeAll hbacking]
        rw [exec_revokeAll hbacking] at h
        exact remembers_of_revokeEach h hmem
    · exact ⟨hi', hreads, .expired (Instant.le_trans (Instant.not_lt.1 hlive)
        (Changes.clock_le hchanges))⟩

theorem ended_serve {q : TokenRequest} (h : (TokenEvent.served q (b.serve m q).1).Ends t)
    (hi : m.Issued b t) (hfresh : b.supply.Fresh m.primitives (b.serve m q).2.drawn) :
    m.Ended (b.serve m q).2 t := by
  have hchanges := changes_serve m q b
  have hi' := hi.changes hchanges hfresh
  generalize he : TokenEvent.served q (b.serve m q).1 = e at h
  cases h with
  | revoked =>
    obtain ⟨rfl, ho⟩ := TokenEvent.served.inj he
    simp only [Backend.serve, TokenManager.serve, run_reply] at ho hi' ⊢
    obtain ⟨r, hr, hreply⟩ := Outcome.map_eq_done.1 ho
    obtain rfl := TokenReply.revoked.inj hreply
    exact (exec_revoke m t.value b).ended hr hi hi' (hfresh.mono (Changes.drawn_le hchanges))
  | rotated p =>
    obtain ⟨rfl, ho⟩ := TokenEvent.served.inj he
    simp only [Backend.serve, TokenManager.serve, run_reply] at ho hi' ⊢
    obtain ⟨r, hr, hreply⟩ := Outcome.map_eq_done.1 ho
    obtain rfl := TokenReply.pair.inj hreply
    exact (exec_refresh m t.value b).ended hr hi hi'
  | revokedAll n hs =>
    obtain ⟨rfl, ho⟩ := TokenEvent.served.inj he
    simp only [Backend.serve, TokenManager.serve, run_reply] at ho hfresh ⊢
    obtain ⟨r, hr, hreply⟩ := Outcome.map_eq_done.1 ho
    obtain rfl := TokenReply.count.inj hreply
    exact ended_revokeAll hs hr hi hfresh

/-- After a token was ended with success, its value never verifies again, whatever requests and
sweeps follow, and until the token expires the reason is that it was revoked. -/
theorem rejected_after_end {p : Primitives} {s : TokenSettings} (hm : new? p s = .ok m)
    {start : Instant} {supply : Supply} (hread : start.IsReading)
    {before after : List TokenEvent} {e : TokenEvent}
    (hrun : m.Runs (.new start supply) (before ++ e :: after) b)
    (hfresh : supply.Fresh m.primitives b.drawn)
    (hissued : ∃ e ∈ before, t ∈ e.issued) (hends : e.Ends t) :
    ∃ f, (b.serve m (.verify t.value)).1 = .done (.verdict (.ok (.error f))) ∧
      (b.clock < t.expiresAt → f = .revoked) := by
  obtain ⟨b₁, hbefore, hrest⟩ := hrun.split
  have hsupply : b₁.supply = supply := Changes.supply_eq hbefore.changes
  obtain ⟨e', he', ht⟩ := hissued
  cases hrest with
  | serve q hafter =>
    have hserve := changes_serve m q b₁
    have hdrawn := Changes.drawn_le hafter.changes
    have hissued := hbefore.issued (lifetime_pos hm) hread
      (hfresh.mono (Nat.le_trans (Changes.drawn_le hserve) hdrawn)) he' ht
    have hended := ended_serve hends hissued (hsupply ▸ hfresh.mono hdrawn)
    have hsupply' : b.supply = supply :=
      (Changes.supply_eq hafter.changes).trans ((Changes.supply_eq hserve).trans hsupply)
    have hfinal := hended.changes hafter.changes ((Changes.supply_eq hserve).trans hsupply ▸ hfresh)
    obtain ⟨f, hf, hreason⟩ := hfinal.verdict (hsupply' ▸ hfresh)
    refine ⟨f, ?_, hreason⟩
    simp only [Backend.serve, TokenManager.serve, run_reply, exec_verify, hf, Outcome.map]
  | clock => cases hends

end TokenManager

namespace Sample

/-! ### A token that is revoked and swept over -/

variable (p : Primitives)

def revoked : Backend :=
  ((issued p .refresh).serve (manager p) (.revoke (token p .refresh).value)).2

theorem serve_revoke :
    ((issued p .refresh).serve (manager p) (.revoke (token p .refresh).value)).1 =
      .done (.revoked (.ok ())) := by
  simp only [Backend.serve, TokenManager.serve, Backend.run_reply]
  rw [TokenManager.exec_revoke_of_found (found_token p .refresh), Outcome.map]

theorem revoked_eq : (revoked p).drawn = 1 ∧ (revoked p).clock = ⟨1700000000, 0⟩ := by
  have h := TokenManager.exec_revoke (manager p) (token p .refresh).value (issued p .refresh)
  unfold revoked Backend.serve
  rw [TokenManager.serve, Backend.run_reply]
  exact ⟨h.drawn_eq, h.clock_eq⟩

/-- A minute after the token was revoked; a sweep was made in between. -/
def later : Backend :=
  { ((revoked p).serve (manager p) .sweep).2 with clock := ⟨1700000060, 0⟩ }

def events : List TokenEvent :=
  [.served .sweep ((revoked p).serve (manager p) .sweep).1, .clock ⟨1700000060, 0⟩]

theorem runs_later :
    (manager p).Runs empty
      ([.served (.generate claims .refresh) (.done (.token (.ok (token p .refresh))))] ++
        .served (.revoke (token p .refresh).value) (.done (.revoked (.ok ()))) :: events p)
      (later p) := by
  obtain ⟨report, hsweep⟩ := TokenManager.serve_sweep (manager p) (revoked p)
  have hle : ((revoked p).serve (manager p) .sweep).2.clock ≤ ⟨1700000060, 0⟩ := by
    rw [hsweep]
    simp only [(revoked_eq p).2]
    decide
  have hrest : (manager p).Runs (revoked p) (events p) (later p) :=
    .serve .sweep (.clock (by decide) hle (.stop (later p)))
  have hrevoke := TokenManager.Runs.serve (.revoke (token p .refresh).value) hrest
  rw [serve_revoke] at hrevoke
  exact .serve (.generate claims .refresh) hrevoke

theorem fresh_later : Supply.counting.Fresh p (later p).drawn := by
  obtain ⟨report, hsweep⟩ := TokenManager.serve_sweep (manager p) (revoked p)
  simp only [later, hsweep, (revoked_eq p).1]
  refine ⟨fun i hi => ?_, fun i hi j hj _ => by omega⟩
  obtain rfl : i = 0 := by omega
  exact isWellFormed_value p .refresh

end Sample

open Sample in
theorem TokenManager.revoked_after_sweep :
    ∃ f, ((later .standard).serve (manager .standard) (.verify (token .standard .refresh).value)).1 =
        .done (.verdict (.ok (.error f))) ∧
      ((later .standard).clock < (token .standard .refresh).expiresAt → f = .revoked) :=
  rejected_after_end (p := .standard) (s := .opaqueValues) rfl (by decide)
    (runs_later .standard) (fresh_later .standard)
    ⟨_, List.mem_singleton_self _, List.mem_singleton_self _⟩ .revoked

end AccessControl
