import AccessControl.Proofs.Token.Bearing

/-!
# Requests about other tokens

A request that does not address a token leaves alone what the backend knows of it (`agrees_serve`):
the presented value stands for another identifier, or the subject whose tokens are revoked is another
one. Only a sweep may drop what is known, and never makes a token revoked (`Runs.unrevoked`). With
opaque values nothing is known of a token before it is drawn (`Runs.unlisted`).
-/

namespace AccessControl

/-- The same is known of a token in both backends. -/
structure Backend.Agrees (b b' : Backend) (id : TokenId) : Prop where
  listed : b'.revocations.contains id = b.revocations.contains id
  record : b'.store.find? id = b.store.find? id

theorem Backend.Agrees.refl (b : Backend) (id : TokenId) : b.Agrees b id := ⟨rfl, rfl⟩

theorem Backend.Agrees.trans {b b' b'' : Backend} {id : TokenId} (h : b.Agrees b' id)
    (h' : b'.Agrees b'' id) : b.Agrees b'' id :=
  ⟨h'.listed.trans h.listed, h'.record.trans h.record⟩

theorem Backend.Agrees.revoked {b b' : Backend} {id : TokenId} (h : b.Agrees b' id)
    (m : TokenManager) : m.revoked b' id = m.revoked b id := by
  rw [TokenManager.revoked, TokenManager.revoked, TokenStore.isRevoked, TokenStore.isRevoked,
    h.listed, h.record]

theorem Backend.Agrees.holds {b b' : Backend} {id : TokenId} (h : b.Agrees b' id)
    (m : TokenManager) : m.holds b' id = m.holds b id := by
  rw [TokenManager.holds, TokenManager.holds, h.record]

/-- The identifier that a value stands for. -/
def TokenManager.idOf? (m : TokenManager) (value : String) : Option TokenId :=
  match m.backing with
  | .signed k => match k.decode value with
    | .ok v => some v.details.id
    | .error _ => none
  | .stored => some (OpaqueValue.id m.primitives value)

/-- The request presents the token to exchange or revoke it, or revokes all tokens of its subject. An
access token may be presented in exchange; it is refused. -/
def TokenRequest.Addresses (m : TokenManager) (t : Token) : TokenRequest → Prop
  | .refresh value => m.idOf? value = some t.id ∧ (value = t.value → t.kind = .refresh)
  | .revoke value => m.idOf? value = some t.id
  | .revokeAll tenant subject =>
    tenant = t.tenant ∧ t.metadata.get? "subject_id" = some subject.text
  | .generate _ _ | .verify _ | .sweep => False

namespace TokenManager

open Backend

variable {m : TokenManager} {b b' : Backend} {t : Token} {c : Claims} {id : TokenId}

theorem idOf?_of_found {value : String} {v : Verified} {marked : Bool}
    (h : m.found b value = .ok (v, marked)) : m.idOf? value = some v.details.id := by
  unfold idOf?
  cases hbacking : m.backing with
  | signed k => simp only [decode_of_found hbacking h]
  | stored =>
    obtain ⟨r, hr, hid, -⟩ := find?_of_found hbacking h
    rw [← hid, TokenStore.id_of_find? hr]

/-! ### What single changes leave -/

theorem agrees_add (b : Backend) {id' : TokenId} (hne : id ≠ id') (time : Instant) :
    b.Agrees { b with revocations := (b.revocations.add id' time).2 } id :=
  ⟨by rw [RevocationList.contains_add, decide_eq_false hne, Bool.false_or], rfl⟩

theorem agrees_revoke (b : Backend) (s : SubjectId) {id' : TokenId} (hne : id ≠ id')
    (time : Instant) : b.Agrees { b with store := (b.store.revoke s id' time).2 } id := by
  refine ⟨rfl, ?_⟩
  rw [TokenStore.find?_revoke]
  cases b.store.find? id <;> simp [hne]

theorem Issues.agrees {kind : TokenKind} (h : m.Issues c kind b t b') (hne : id ≠ t.id) :
    b.Agrees b' id := by
  rw [h.after]
  refine ⟨by rw [keep_revocations], ?_⟩
  unfold keep
  split
  · rfl
  · rw [TokenStore.find?_insert, Token.record, if_neg hne]

theorem agrees_marked (b : Backend) {v : Verified} (hne : id ≠ v.details.id) :
    b.Agrees { b with store := m.marked b v } id := by
  unfold marked
  split
  · exact agrees_revoke b _ hne b.clock
  · exact .refl b id

theorem agrees_retired (b : Backend) {v : Verified} (hne : id ≠ v.details.id) :
    b.Agrees (m.retired b v) id :=
  (agrees_add b hne v.details.expiresAt).trans (agrees_marked _ hne)

/-! ### What requests leave -/

theorem Rotates.agrees {value : String} {o : Outcome (Except TokenError TokenPair)}
    (h : m.Rotates value b o b') (hdrew : m.Drew b id)
    (hdistinct : b.supply.Distinct m.primitives b'.drawn) (hne : m.idOf? value ≠ some id) :
    b.Agrees b' id := by
  cases h with
  | @halfway v t b' hv hkind haccess =>
    have hdrawn := haccess.drawn_eq
    refine haccess.agrees ?_
    rw [haccess.id_eq]
    exact hdrew.ne_idAt (Nat.le_refl _) (by omega) hdistinct
  | @rotated v pair b₁ b₂ hv hkind haccess hrefresh =>
    have hdrawn : (m.retired b₂ v).drawn = b.drawn + 2 := by
      show b₂.drawn = b.drawn + 2
      rw [hrefresh.drawn_eq, haccess.drawn_eq]
    have hretired : id ≠ v.details.id := fun he =>
      hne (he ▸ idOf?_of_found (verdict_ok hv).1)
    refine (haccess.agrees ?_).trans ((hrefresh.agrees ?_).trans (agrees_retired b₂ hretired))
    · rw [haccess.id_eq]
      exact hdrew.ne_idAt (Nat.le_refl _) (by omega) hdistinct
    · rw [hrefresh.id_eq, haccess.supply_eq, haccess.drawn_eq]
      exact hdrew.ne_idAt (Nat.le_succ _) (by omega) hdistinct
  | _ => exact .refl _ _

/-- An access token cannot be exchanged, and trying changes nothing. -/
theorem Rotates.unchanged {o : Outcome (Except TokenError TokenPair)}
    (h : m.Rotates t.value b o b') (hbears : m.Bears b t c) (hkind : t.kind ≠ .refresh) :
    b' = b := by
  have hnone : ∀ v, m.verdict b t.value = .ok v → v.details.kind ≠ .refresh := fun v hv =>
    hbears.kind_of_found (verdict_ok hv).1 ▸ hkind
  cases h with
  | halfway hv hrefresh => exact absurd hrefresh (hnone _ hv)
  | rotated hv hrefresh => exact absurd hrefresh (hnone _ hv)
  | _ => rfl

theorem Revokes.agrees {value : String} {o : Outcome (Except TokenError Unit)}
    (h : m.Revokes value b o b') (hne : m.idOf? value ≠ some id) : b.Agrees b' id := by
  cases h with
  | @signed k v hbacking hv =>
    refine agrees_add b (fun he => hne ?_) v.details.expiresAt
    rw [he]
    exact idOf?_of_found (found_of_decode (b := b) hbacking hv)
  | @stored r hbacking hr =>
    have hne' : id ≠ OpaqueValue.id m.primitives value := fun he =>
      hne (by rw [idOf?, hbacking, he])
    exact (agrees_add b hne' r.expiresAt).trans (agrees_revoke _ r.subject hne' b.clock)
  | _ => exact .refl _ _

theorem agrees_struck (b : Backend) (subject : SubjectId) (now : Instant) {r : TokenRecord}
    (hne : id ≠ r.id) : b.Agrees (struck b subject now r) id :=
  (agrees_add b hne r.expiresAt).trans (agrees_revoke _ subject hne now)

theorem agrees_revokeEach {subject : SubjectId} {now : Instant} {rs : List TokenRecord}
    (hne : ∀ r ∈ rs, id ≠ r.id) : b.Agrees (b.exec (revokeEach subject now rs)).2 id := by
  induction rs generalizing b with
  | nil => exact .refl _ _
  | cons r rs ih =>
    have hstruck := agrees_struck b subject now (hne r List.mem_cons_self)
    rw [exec_revokeEach_cons]
    cases owned (b.store.revoke subject r.id now).1 with
    | error f => exact hstruck
    | ok new => exact hstruck.trans (ih fun r' hr' => hne r' (List.mem_cons_of_mem _ hr'))

theorem agrees_revokeAll (h : m.Bears b t c) {tenant : TenantId} {subject : SubjectId}
    (hq : ¬(TokenRequest.revokeAll tenant subject).Addresses m t) :
    b.Agrees (b.exec (m.revokeAll tenant subject)).2 t.id := by
  cases hbacking : m.backing with
  | signed k =>
    rw [revokeAll, hbacking]
    exact .refl _ _
  | stored =>
    rw [exec_revokeAll hbacking]
    refine agrees_revokeEach fun r hr he => hq ?_
    obtain ⟨hfind, htenant, hsubject, -⟩ := mem_liveRecords.1 hr
    rw [← he] at hfind
    obtain ⟨mark, rfl⟩ := h.record hbacking r hfind
    obtain ⟨s, hs, hmeta⟩ := h.subject
    refine ⟨htenant.symm, ?_⟩
    rw [hmeta, ← hsubject]
    simp [Token.record, hs]

/-- What a backend knows of a token is left alone by every request that does not address it and is
no sweep. -/
theorem agrees_serve (h : m.Bears b t c) {q : TokenRequest}
    (hdistinct : b.supply.Distinct m.primitives (b.serve m q).2.drawn) (hq : ¬q.Addresses m t)
    (hsweep : q ≠ .sweep) : b.Agrees (b.serve m q).2 t.id := by
  unfold Backend.serve at hdistinct ⊢
  cases q with
  | generate c' kind =>
    simp only [TokenManager.serve, run_reply, generate] at hdistinct ⊢
    split
    · next hcheck =>
      simp only [hcheck] at hdistinct
      rcases exec_issue m c' kind b with ⟨t', b', he, hissues⟩ | ⟨he, -⟩ | ⟨he, -⟩ <;>
        rw [he] at hdistinct ⊢
      · have hdrawn := hissues.drawn_eq
        refine hissues.agrees ?_
        rw [hissues.id_eq]
        exact h.drew.ne_idAt (Nat.le_refl _) (by simp only; omega) hdistinct
      · exact .refl _ _
      · exact .refl _ _
    · exact .refl _ _
  | verify value =>
    simp only [TokenManager.serve, run_reply, exec_verify]
    exact .refl _ _
  | refresh value =>
    simp only [TokenManager.serve, run_reply] at hdistinct ⊢
    have hrotates := exec_refresh m value b
    by_cases hid : m.idOf? value = some t.id
    · obtain ⟨rfl, hkind⟩ := Classical.not_imp.1 (not_and.1 hq hid)
      rw [hrotates.unchanged h hkind]
      exact .refl _ _
    · exact hrotates.agrees h.drew hdistinct hid
  | revoke value =>
    simp only [TokenManager.serve, run_reply]
    exact (exec_revoke m value b).agrees hq
  | revokeAll tenant subject =>
    simp only [TokenManager.serve, run_reply]
    exact agrees_revokeAll h hq
  | sweep => exact absurd rfl hsweep

/-! ### What gets on the list -/

theorem listed_add {l : RevocationList} {id' : TokenId} {time : Instant}
    (h : (l.add id' time).2.contains id = true) : l.contains id = true ∨ id = id' := by
  rw [RevocationList.contains_add, Bool.or_eq_true, decide_eq_true_eq] at h
  exact h.symm

theorem record_of_found (hstored : m.backing = .stored) {value : String} {v : Verified}
    {marked : Bool} (h : m.found b value = .ok (v, marked)) :
    (b.store.find? v.details.id).isSome := by
  obtain ⟨r, hr, hid, -⟩ := find?_of_found hstored h
  rw [← hid, TokenStore.id_of_find? hr, hr]
  rfl

theorem Rotates.listed {value : String} {o : Outcome (Except TokenError TokenPair)}
    (h : m.Rotates value b o b') (hstored : m.backing = .stored)
    (hid : b'.revocations.contains id = true) :
    b.revocations.contains id = true ∨ (b.store.find? id).isSome := by
  cases h with
  | halfway _ _ haccess =>
    rw [haccess.after, keep_revocations] at hid
    exact .inl hid
  | rotated hv _ haccess hrefresh =>
    rw [retired, hrefresh.after, keep_revocations, haccess.after, keep_revocations] at hid
    refine (listed_add hid).imp_right ?_
    rintro rfl
    exact record_of_found hstored (verdict_ok hv).1
  | _ => exact .inl hid

theorem Revokes.listed {value : String} {o : Outcome (Except TokenError Unit)}
    (h : m.Revokes value b o b') (hstored : m.backing = .stored)
    (hid : b'.revocations.contains id = true) :
    b.revocations.contains id = true ∨ (b.store.find? id).isSome := by
  cases h with
  | signed hsigned =>
    rw [hstored] at hsigned
    cases hsigned
  | stored _ hr =>
    refine (listed_add hid).imp_right ?_
    rintro rfl
    rw [hr]
    rfl
  | _ => exact .inl hid

theorem listed_revokeEach {subject : SubjectId} {now : Instant} {rs : List TokenRecord}
    (h : (b.exec (revokeEach subject now rs)).2.revocations.contains id = true) :
    b.revocations.contains id = true ∨ ∃ r ∈ rs, id = r.id := by
  induction rs generalizing b with
  | nil => exact .inl h
  | cons r rs ih =>
    have hstruck : (struck b subject now r).revocations.contains id = true →
        b.revocations.contains id = true ∨ ∃ r' ∈ r :: rs, id = r'.id := fun h =>
      (listed_add h).imp_right fun he => ⟨r, List.mem_cons_self, he⟩
    rw [exec_revokeEach_cons] at h
    cases ho : owned (b.store.revoke subject r.id now).1 with
    | error f =>
      rw [ho] at h
      exact hstruck h
    | ok new =>
      rw [ho] at h
      rcases ih h with h | ⟨r', hr', he⟩
      · exact hstruck h
      · exact .inr ⟨r', List.mem_cons_of_mem _ hr', he⟩

/-- With opaque values, requests put only identifiers of records on the list. -/
theorem listed_serve (hstored : m.backing = .stored) {q : TokenRequest}
    (h : (b.serve m q).2.revocations.contains id = true) :
    b.revocations.contains id = true ∨ (b.store.find? id).isSome := by
  unfold Backend.serve at h
  cases q with
  | generate c kind =>
    simp only [TokenManager.serve, run_reply, generate] at h
    split at h
    · rcases exec_issue m c kind b with ⟨t, b', he, hissues⟩ | ⟨he, -⟩ | ⟨he, -⟩ <;> rw [he] at h
      · rw [hissues.after, keep_revocations] at h
        exact .inl h
      · exact .inl h
      · exact .inl h
    · exact .inl h
  | verify value =>
    simp only [TokenManager.serve, run_reply, exec_verify] at h
    exact .inl h
  | refresh value =>
    simp only [TokenManager.serve, run_reply] at h
    exact (exec_refresh m value b).listed hstored h
  | revoke value =>
    simp only [TokenManager.serve, run_reply] at h
    exact (exec_revoke m value b).listed hstored h
  | revokeAll tenant subject =>
    simp only [TokenManager.serve, run_reply, exec_revokeAll hstored] at h
    rcases listed_revokeEach h with h | ⟨r, hr, he⟩
    · exact .inl h
    · rw [he, (mem_liveRecords.1 hr).1]
      exact .inr rfl
  | sweep =>
    obtain ⟨report, he⟩ := serve_sweep m b
    rw [Backend.serve] at he
    rw [he, RevocationList.contains_eq, RevocationList.expiry?_cleanup] at h
    rw [RevocationList.contains_eq]
    cases hl : b.revocations.expiry? id with
    | none =>
      rw [hl] at h
      cases h
    | some time => exact .inl rfl

/-- Records and revocations are of drawn identifiers only. -/
structure Known (m : TokenManager) (b : Backend) : Prop where
  recorded : ∀ id, (b.store.find? id).isSome → m.Drew b id
  listed : ∀ id, b.revocations.contains id = true → m.Drew b id

theorem known_new (m : TokenManager) (start : Instant) (supply : Supply) :
    m.Known (.new start supply) := by
  constructor
  all_goals
    intro id hid
    cases hid

theorem recorded_change (h : ∀ id, (b.store.find? id).isSome → m.Drew b id)
    (hchange : m.Change b b') : ∀ id, (b'.store.find? id).isSome → m.Drew b' id := by
  have hmore := fun id hid => (h id hid).changes (.single hchange)
  intro id hid
  cases hchange with
  | @record r hstored hr =>
    rw [TokenStore.find?_insert] at hid
    split at hid
    next he => exact ⟨b.drawn, Nat.lt_succ_self _, by rw [he, hr, idAt, hstored]⟩
    · exact hmore id hid
  | mark s id' time =>
    rw [TokenStore.find?_revoke, Option.isSome_map] at hid
    exact hmore id hid
  | sweepRecords =>
    rw [TokenStore.find?_cleanup] at hid
    obtain ⟨r, hr⟩ := Option.isSome_iff_exists.1 hid
    exact hmore id (Option.isSome_iff_exists.2 ⟨r, (Option.filter_eq_some_iff.1 hr).1⟩)
  | _ => exact hmore id hid

theorem Known.serve (h : m.Known b) (hstored : m.backing = .stored) (q : TokenRequest) :
    m.Known (b.serve m q).2 := by
  have hchanges := changes_serve m q b
  refine ⟨?_, fun id hid => Drew.changes ?_ hchanges⟩
  · generalize (b.serve m q).2 = b' at hchanges
    induction hchanges with
    | refl => exact h.recorded
    | tail _ hchange ih => exact recorded_change ih hchange
  · exact (listed_serve hstored hid).elim (h.listed id) (h.recorded id)

/-! ### Runs -/

theorem unrevoked_sweep (h : m.revoked b id = false) :
    m.revoked (b.serve m .sweep).2 id = false := by
  have hdropped : ∀ {α : Type} (p q : α → Bool) (o : Option α), o.any q = false →
      (o.filter p).any q = false := by
    intro α p q o ho
    cases o with
    | none => rfl
    | some a => by_cases hp : p a <;> simp_all [Option.filter]
  obtain ⟨report, he⟩ := serve_sweep m b
  rw [he]
  rw [TokenManager.revoked, Bool.or_eq_false_iff, Bool.and_eq_false_iff] at h ⊢
  refine ⟨h.1.imp_right fun hrecord => ?_, ?_⟩
  · split
    · rw [TokenStore.isRevoked, TokenStore.find?_cleanup]
      exact hdropped _ _ _ hrecord
    · exact hrecord
  · rw [RevocationList.contains_eq, RevocationList.expiry?_cleanup]
    rw [RevocationList.contains_eq] at h
    cases hl : b.revocations.expiry? id with
    | none => rfl
    | some time => simp [hl] at h

/-- What requests and the clock keep of a token that was issued, runs keep. -/
theorem Runs.preserve {P : Backend → Prop} {es : List TokenEvent} (hrun : m.Runs b es b')
    (h : m.Bears b t c) (hdistinct : b.supply.Distinct m.primitives b'.drawn)
    (hserve : ∀ b q o, .served q o ∈ es → m.Bears b t c →
      b.supply.Distinct m.primitives (b.serve m q).2.drawn → P b → P (b.serve m q).2)
    (hclock : ∀ b time, P b → P { b with clock := time }) (hP : P b) : P b' := by
  induction hrun with
  | stop b => exact hP
  | @serve b b' es q hrun ih =>
    have hchanges := changes_serve m q b
    have hdistinct' := hdistinct.mono (Changes.drawn_le hrun.changes)
    exact ih (h.changes hchanges hdistinct') (Changes.supply_eq hchanges ▸ hdistinct)
      (fun b q o hq => hserve b q o (List.mem_cons_of_mem _ hq))
      (hserve b q _ List.mem_cons_self h hdistinct' hP)
  | clock hread hle hrun ih =>
    exact ih { h with } hdistinct (fun b q o hq => hserve b q o (List.mem_cons_of_mem _ hq))
      (hclock _ _ hP)

/-- Without sweeps, what verification needs of a token stays. -/
theorem Runs.holds {es : List TokenEvent} (hrun : m.Runs b es b') (h : m.Bears b t c)
    (hdistinct : b.supply.Distinct m.primitives b'.drawn)
    (hleft : ∀ q o, .served q o ∈ es → ¬q.Addresses m t) (hkept : ∀ o, .served .sweep o ∉ es)
    (hholds : m.holds b t.id = true) : m.holds b' t.id = true := by
  refine hrun.preserve h hdistinct (P := (m.holds · t.id = true))
    (fun b q o hq hb hd hholds => ?_) (fun b time hholds => hholds) hholds
  have hsweep : q ≠ .sweep := by
    rintro rfl
    exact hkept o hq
  rw [(agrees_serve hb hd (hleft q o hq) hsweep).holds m]
  exact hholds

/-- A token that no request addresses is not revoked. -/
theorem Runs.unrevoked {es : List TokenEvent} (hrun : m.Runs b es b') (h : m.Bears b t c)
    (hdistinct : b.supply.Distinct m.primitives b'.drawn)
    (hleft : ∀ q o, .served q o ∈ es → ¬q.Addresses m t) (hr : m.revoked b t.id = false) :
    m.revoked b' t.id = false := by
  refine hrun.preserve h hdistinct (P := (m.revoked · t.id = false))
    (fun b q o hq hb hd hr => ?_) (fun b time hr => hr) hr
  by_cases hsweep : q = .sweep
  · subst hsweep
    exact unrevoked_sweep hr
  · rw [(agrees_serve hb hd (hleft q o hq) hsweep).revoked m]
    exact hr

theorem Runs.known {es : List TokenEvent} (hrun : m.Runs b es b') (hstored : m.backing = .stored)
    (h : m.Known b) : m.Known b' := by
  induction hrun with
  | stop b => exact h
  | serve q hrun ih => exact ih (h.serve hstored q)
  | clock hread hle hrun ih => exact ih { h with }

/-- An identifier that is yet to be drawn is not on the list, unless a signed value for it was
presented. -/
theorem Runs.unlisted {start : Instant} {supply : Supply} {es : List TokenEvent}
    (hrun : m.Runs (.new start supply) es b) {i n : Nat} (hdistinct : supply.Distinct m.primitives n)
    (hi : b.drawn ≤ i) (hn : i < n)
    (hsigned : ∀ k, m.backing = .signed k → b.revocations.contains (supply.id i) = false) :
    b.revocations.contains (m.idAt supply i) = false := by
  cases hbacking : m.backing with
  | signed k =>
    rw [idAt, hbacking]
    exact hsigned k hbacking
  | stored =>
    have hknown := hrun.known hbacking (known_new m start supply)
    have hsupply : b.supply = supply := Changes.supply_eq hrun.changes
    refine Bool.eq_false_iff.2 fun hlisted => ?_
    exact (hknown.listed _ hlisted).ne_idAt hi hn (hsupply ▸ hdistinct) (by rw [hsupply])

end TokenManager

end AccessControl
