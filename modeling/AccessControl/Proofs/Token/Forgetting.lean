import AccessControl.Proofs.Token.Bookkeeping

/-!
# Forgetting what has expired

A backend that forgot records and revocations of expired tokens serves requests in step with one
that did not (`InStep`): every operation asks for the expiry before it makes use of the rest. Of two
such backends the one with less tells at most that a token is not there where the other tells that it
has expired.
-/

namespace AccessControl

/-- Sorting does not exchange what compares alike, so elements may be left out before or after. -/
theorem filter_mergeSort {α : Type} {le : α → α → Bool}
    (htrans : ∀ a b c, le a b = true → le b c = true → le a c = true)
    (htotal : ∀ a b, (le a b || le b a) = true) (p : α → Bool) (l : List α) :
    (l.mergeSort le).filter p = (l.filter p).mergeSort le := by
  -- In a sorted list, `a` stands behind exactly those elements that it is not before.
  have hfront : ∀ {a : α} {xs ys : List α}, (∀ b ∈ xs, (!le a b) = true) →
      (xs ++ a :: ys).Pairwise (fun a b => le a b = true) →
      (xs ++ ys).filter (fun b => !le a b) = xs ∧ (xs ++ ys).filter (fun b => le a b) = ys := by
    intro a xs ys hxs hsorted
    have hys := (List.pairwise_cons.1 (List.pairwise_append.1 hsorted).2.1).1
    rw [List.filter_append, List.filter_append]
    constructor
    · rw [List.filter_eq_self.2 hxs, List.filter_eq_nil_iff.2 fun b hb => by simp [hys b hb],
        List.append_nil]
    · rw [List.filter_eq_self.2 hys, List.filter_eq_nil_iff.2 fun b hb => by simpa using hxs b hb,
        List.nil_append]
  induction l with
  | nil => simp
  | cons a l ih =>
    obtain ⟨l₁, l₂, hcons, hl, hl₁⟩ := List.mergeSort_cons htrans htotal a l
    have hsorted := List.pairwise_mergeSort htrans htotal (a :: l)
    rw [hcons] at hsorted
    rw [hl, List.filter_append] at ih
    rw [hcons, List.filter_append, List.filter_cons]
    by_cases hp : p a = true
    · rw [if_pos hp, List.filter_cons_of_pos hp]
      obtain ⟨l₁', l₂', hcons', hl', hl₁'⟩ := List.mergeSort_cons htrans htotal a (l.filter p)
      have hsorted' := List.pairwise_mergeSort htrans htotal (a :: l.filter p)
      rw [hcons'] at hsorted'
      have hleft : (l₁.filter p ++ a :: l₂.filter p).Pairwise (fun a b => le a b = true) := by
        have := hsorted.filter p
        rwa [List.filter_append, List.filter_cons_of_pos hp] at this
      obtain ⟨h₁, h₂⟩ := hfront (fun b hb => hl₁ b (List.mem_filter.1 hb).1) hleft
      obtain ⟨h₁', h₂'⟩ := hfront hl₁' hsorted'
      rw [ih, hl'] at h₁ h₂
      rw [hcons', ← h₁, ← h₂, h₁', h₂']
    · rw [if_neg hp, List.filter_cons_of_neg hp, ih]

/-- `y` is `x`, or nothing in the place of what has expired. -/
def Lapsed {α : Type} (expiresAt : α → Instant) (now : Instant) (x y : Option α) : Prop :=
  y = x ∨ y = none ∧ ∃ a, x = some a ∧ expiresAt a ≤ now

namespace Lapsed

variable {α : Type} {expiresAt : α → Instant} {now : Instant} {x y : Option α}

theorem eq_of_live (h : Lapsed expiresAt now x y) (hlive : ∀ a, x = some a → now < expiresAt a) :
    y = x := by
  rcases h with h | ⟨-, a, ha, hexpired⟩
  · exact h
  · exact absurd hexpired (Instant.not_le.2 (hlive a ha))

theorem later (h : Lapsed expiresAt now x y) {t : Instant} (hle : now ≤ t) :
    Lapsed expiresAt t x y :=
  h.imp_right fun ⟨hy, a, ha, hexpired⟩ => ⟨hy, a, ha, Instant.le_trans hexpired hle⟩

theorem map (h : Lapsed expiresAt now x y) {f : α → α} (hf : ∀ a, expiresAt (f a) = expiresAt a) :
    Lapsed expiresAt now (x.map f) (y.map f) := by
  rcases h with rfl | ⟨rfl, a, rfl, hexpired⟩
  · exact .inl rfl
  · exact .inr ⟨rfl, f a, rfl, (hf a).symm ▸ hexpired⟩

theorem filter (h : Lapsed expiresAt now x y) {p : α → Bool}
    (hp : ∀ a, p a = false → expiresAt a ≤ now) : Lapsed expiresAt now x (y.filter p) := by
  rcases h with rfl | ⟨rfl, hx⟩
  · cases y with
    | none => exact .inl rfl
    | some a =>
      cases hpa : p a with
      | true => exact .inl (by rw [Option.filter_some, if_pos hpa])
      | false => exact .inr ⟨by rw [Option.filter_some, hpa]; rfl, a, rfl, hp a hpa⟩
  · exact .inr ⟨rfl, hx⟩

end Lapsed

/-- `b'` is `b` but for records and revocations that have expired. -/
structure Backend.Forgot (b b' : Backend) : Prop where
  clock : b'.clock = b.clock
  supply : b'.supply = b.supply
  drawn : b'.drawn = b.drawn
  record : ∀ id, Lapsed TokenRecord.expiresAt b.clock (b.store.find? id) (b'.store.find? id)
  listed : ∀ id, Lapsed (fun t => t) b.clock (b.revocations.expiry? id) (b'.revocations.expiry? id)

/-- The two backends hold the same of an identifier. -/
structure Backend.SameOf (b b' : Backend) (id : TokenId) : Prop where
  record : b'.store.find? id = b.store.find? id
  listed : b'.revocations.expiry? id = b.revocations.expiry? id

namespace Backend.Forgot

variable {b b' : Backend}

theorem refl (b : Backend) : b.Forgot b := ⟨rfl, rfl, rfl, fun _ => .inl rfl, fun _ => .inl rfl⟩

theorem draw (h : b.Forgot b') :
    Forgot { b with drawn := b.drawn + 1 } { b' with drawn := b'.drawn + 1 } :=
  { h with drawn := congrArg (· + 1) h.drawn }

theorem insert (h : b.Forgot b') (r : TokenRecord) :
    Forgot { b with store := b.store.insert r } { b' with store := b'.store.insert r } := by
  refine { h with record := fun id => ?_ }
  rw [TokenStore.find?_insert, TokenStore.find?_insert]
  split
  · exact .inl rfl
  · exact h.record id

/-- An entry for a live token is the same whether there was an expired one before or none. -/
theorem add (h : b.Forgot b') (id : TokenId) {t : Instant} (hlive : b.clock < t) :
    Forgot { b with revocations := (b.revocations.add id t).2 }
      { b' with revocations := (b'.revocations.add id t).2 } := by
  refine { h with listed := fun id' => ?_ }
  rw [RevocationList.expiry?_add, RevocationList.expiry?_add]
  split
  · rcases h.listed id with he | ⟨he, u, hu, hexpired⟩
    · exact .inl (by rw [he])
    · rw [he, hu]
      exact .inl (congrArg some
        (Instant.latest_of_lt (Instant.lt_of_le_of_lt hexpired hlive)).symm)
  · exact h.listed id'

theorem mark (h : b.Forgot b') (s : SubjectId) (id : TokenId) (t : Instant) :
    Forgot { b with store := (b.store.revoke s id t).2 }
      { b' with store := (b'.store.revoke s id t).2 } := by
  refine { h with record := fun id' => ?_ }
  rw [TokenStore.find?_revoke, TokenStore.find?_revoke]
  refine (h.record id').map fun r => ?_
  split
  · exact r.expiresAt_mark t
  · rfl

theorem setClock (h : b.Forgot b') {t : Instant} (hle : b.clock ≤ t) :
    Forgot { b with clock := t } { b' with clock := t } :=
  { h with
    clock := rfl
    record := fun id => (h.record id).later hle
    listed := fun id => (h.listed id).later hle }

theorem sweep (h : b.Forgot b') (m : TokenManager) : b.Forgot (b'.serve m .sweep).2 := by
  obtain ⟨report, he⟩ := TokenManager.serve_sweep m b'
  rw [he]
  refine { h with record := fun id => ?_, listed := fun id => ?_ }
  · simp only
    split
    · rw [TokenStore.find?_cleanup]
      refine (h.record id).filter fun r hr => ?_
      rw [← h.clock]
      simpa [TokenRecord.isExpired] using hr
    · exact h.record id
  · rw [RevocationList.expiry?_cleanup]
    refine (h.listed id).filter fun t ht => ?_
    rw [← h.clock]
    simpa [Instant.not_lt] using ht

/-- The live records of a subject are the same, in the same order. -/
theorem list_live (h : b.Forgot b') (tenant : TenantId) (subject : SubjectId) :
    (b'.store.list tenant subject).filter (·.isLive b.clock) =
      (b.store.list tenant subject).filter (·.isLive b.clock) := by
  have hlive : b'.store.filter (fun _ r => r.isLive b.clock) =
      b.store.filter (fun _ r => r.isLive b.clock) := by
    refine TokenStore.ext fun id => ?_
    rw [TokenStore.find?_filter, TokenStore.find?_filter]
    rcases h.record id with he | ⟨he, r, hr, hexpired⟩
    · rw [he]
    · rw [he, hr, Option.filter_some, if_neg (by simp [TokenRecord.isLive, TokenRecord.isExpired,
        hexpired])]
      rfl
  have hvalues : ∀ st : TokenStore, st.records.values.filter (·.isLive b.clock) =
      (st.filter fun _ r => r.isLive b.clock).records.values := fun st => List.filter_map
  have hlist : ∀ st : TokenStore, (st.list tenant subject).filter (·.isLive b.clock) =
      ((st.records.values.filter (·.isLive b.clock)).filter
        fun r => r.tenant = tenant && r.subject = subject).mergeSort
          fun a b => a.issuedAt ≤ b.issuedAt := by
    intro st
    rw [TokenStore.list, filter_mergeSort TokenRecord.issued_trans TokenRecord.issued_total,
      List.filter_filter, List.filter_filter]
    simp only [Bool.and_comm]
  rw [hlist, hlist, hvalues, hvalues, hlive]

end Backend.Forgot

namespace TokenManager

open Backend

variable {m : TokenManager} {b b' : Backend} {α β : Type} {value : String}

/-! ### Operations in step -/

/-- An operation ends in the same way on two backends, and leaves them alike. -/
def InStep (x : Operation α) (b b' : Backend) : Prop :=
  ∃ o b₁ b₁', b.exec x = (o, b₁) ∧ b'.exec x = (o, b₁') ∧ b₁.Forgot b₁'

theorem inStep_of_eq {x : Operation α} (h : b.Forgot b') {r : Except TokenError α}
    (hx : b.exec x = (.done r, b)) (hx' : b'.exec x = (.done r, b')) : InStep x b b' :=
  ⟨_, b, b', hx, hx', h⟩

theorem InStep.bind {x : Operation α} {f : α → Operation β} (hx : InStep x b b')
    (hf : ∀ a b₁ b₁', b.exec x = (.done (.ok a), b₁) → b'.exec x = (.done (.ok a), b₁') →
      b₁.Forgot b₁' → InStep (f a) b₁ b₁') : InStep (x >>= f) b b' := by
  obtain ⟨o, b₁, b₁', h, h', hforgot⟩ := hx
  unfold InStep
  rw [exec_bind, exec_bind, h, h']
  cases o with
  | done r =>
    cases r with
    | ok a => exact hf a b₁ b₁' h h' hforgot
    | error e => exact ⟨_, _, _, rfl, rfl, hforgot⟩
  | aborted => exact ⟨_, _, _, rfl, rfl, hforgot⟩
  | stuck => exact ⟨_, _, _, rfl, rfl, hforgot⟩

theorem inStep_now (h : b.Forgot b') :
    InStep (liftM (Procedure.call .now) : Operation Instant) b b' :=
  inStep_of_eq h (exec_now b) (by rw [exec_now, h.clock])

theorem inStep_representable (h : b.Forgot b') (t : Option Instant) :
    InStep (Operation.representable t) b b' := by
  cases t with
  | none => exact ⟨.aborted, b, b', rfl, rfl, h⟩
  | some t => exact inStep_of_eq h rfl rfl

theorem inStep_freshId (h : b.Forgot b') :
    InStep (liftM (Procedure.call .freshId) : Operation TokenId) b b' := by
  refine ⟨.done (.ok (b.supply.id b.drawn)), _, _, rfl, ?_, h.draw⟩
  rw [← h.supply, ← h.drawn]
  rfl

theorem inStep_freshValue (h : b.Forgot b') :
    InStep (liftM (Procedure.call .freshValue) : Operation String) b b' := by
  refine ⟨.done (.ok (b.supply.value b.drawn)), _, _, rfl, ?_, h.draw⟩
  rw [← h.supply, ← h.drawn]
  rfl

theorem inStep_insertRecord (h : b.Forgot b') (fault : CallFault → TokenError) (r : TokenRecord) :
    InStep (Operation.checked fault (Procedure.boundCall (.insertRecord r))) b b' :=
  ⟨.done (.ok ()), _, _, rfl, rfl, h.insert r⟩

theorem inStep_issue (h : b.Forgot b') (c : Claims) (kind : TokenKind) :
    InStep (m.issue c kind) b b' := by
  unfold issue
  refine (inStep_now h).bind fun now _ _ _ _ h₁ => ?_
  refine (inStep_representable h₁ _).bind fun expiresAt _ _ _ _ h₂ => ?_
  split
  · refine InStep.bind ?_ fun _ _ _ _ _ h₃ => inStep_of_eq h₃ rfl rfl
    unfold mint
    split
    · exact (inStep_freshId h₂).bind fun _ _ _ _ _ h₃ => inStep_of_eq h₃ rfl rfl
    · exact (inStep_freshValue h₂).bind fun _ _ _ _ _ h₃ =>
        (inStep_insertRecord h₃ _ _).bind fun _ _ _ _ _ h₄ => inStep_of_eq h₄ rfl rfl
  · exact inStep_of_eq h₂ rfl rfl

theorem exec_issue_revocations {c : Claims} {kind : TokenKind} {t : Token} {b₁ : Backend}
    (h : b.exec (m.issue c kind) = (.done (.ok t), b₁)) : b₁.revocations = b.revocations := by
  rcases exec_issue m c kind b with ⟨t', b', he, hissues⟩ | ⟨he, -⟩ | ⟨he, -⟩ <;> rw [he] at h
  · obtain ⟨-, rfl⟩ := Prod.mk.inj h
    rw [hissues.after, keep_revocations]
  · cases h
  · cases h

/-- For claims that a token was issued for, no other issuing fails. -/
theorem exec_tryCatch_issue {c : Claims} {kind kind' : TokenKind} {t : Token} {b₁ : Backend}
    (h : b.exec (m.issue c kind) = (.done (.ok t), b₁)) (b₂ : Backend)
    (f : TokenError → Operation Token) :
    b₂.exec (tryCatch (m.issue c kind') f) = b₂.exec (m.issue c kind') := by
  rw [exec_tryCatch]
  rcases exec_issue m c kind' b₂ with ⟨t', b', he, -⟩ | ⟨he, -⟩ | ⟨-, hnone⟩
  · rw [he]
  · rw [he]
  · rcases exec_issue m c kind b with ⟨t', b', -, hissues⟩ | ⟨he, -⟩ | ⟨he, -⟩
    · obtain ⟨s, hs, -⟩ := hissues.subject
      simp [hissues.tenant, hissues.app, hs] at hnone
    · rw [he] at h
      cases h
    · rw [he] at h
      cases h

/-! ### Verification -/

/-- A value that is found stands for a token whose entry on the list has the expiry of the token. -/
def Dated (m : TokenManager) (b : Backend) (value : String) : Prop :=
  ∀ v marked t, m.found b value = .ok (v, marked) → b.revocations.expiry? v.details.id = some t →
    t = v.details.expiresAt

theorem found_forgot (h : b.Forgot b') (value : String) :
    m.found b' value = m.found b value ∨
      m.hasStore = true ∧ m.found b' value = .error .notFound ∧
        ∃ v marked, m.found b value = .ok (v, marked) ∧ v.details.expiresAt ≤ b.clock := by
  unfold TokenManager.found
  cases hbacking : m.backing with
  | signed k => exact .inl rfl
  | stored =>
    have hstore : m.hasStore = true := by rw [hasStore, hbacking]
    simp only
    split
    · rcases h.record (OpaqueValue.id m.primitives value) with he | ⟨he, r, hr, hexpired⟩
      · exact .inl (by rw [he])
      · rw [he, hr]
        exact .inr ⟨hstore, rfl, ⟨r.claims, r.details⟩, r.isRevoked, rfl, hexpired⟩
    · exact .inl rfl

/-- What is on the list of a live token is not forgotten. -/
theorem expiry?_forgot (h : b.Forgot b') (hdated : m.Dated b value) {v : Verified} {marked : Bool}
    (hfound : m.found b value = .ok (v, marked)) (hlive : b.clock < v.details.expiresAt) :
    b'.revocations.expiry? v.details.id = b.revocations.expiry? v.details.id :=
  (h.listed v.details.id).eq_of_live fun t ht => hdated v marked t hfound ht ▸ hlive

theorem verdict_forgot (h : b.Forgot b') (hdated : m.Dated b value) :
    m.verdict b' value = m.verdict b value ∨
      m.hasStore = true ∧ m.verdict b value = .error .expired ∧
        m.verdict b' value = .error .notFound := by
  rcases found_forgot (m := m) h value with he | ⟨hstore, he, v, marked, hfound, hexpired⟩
  · refine .inl ?_
    unfold verdict
    rw [he, h.clock]
    cases hfound : m.found b value with
    | error f => rfl
    | ok found =>
      obtain ⟨v, marked⟩ := found
      by_cases hexpired : v.details.expiresAt ≤ b.clock
      · simp only [if_pos hexpired]
      · have hsame := expiry?_forgot h hdated hfound (Instant.not_le.1 hexpired)
        simp only
        rw [if_neg hexpired, if_neg hexpired, RevocationList.contains_eq, hsame]
        rfl
  · refine .inr ⟨hstore, ?_, ?_⟩
    · rw [verdict, hfound]
      exact if_pos hexpired
    · rw [verdict, he]

/-! ### Rotation -/

theorem inStep_retire (h : b.Forgot b') {d : TokenDetails} (hlive : b.clock < d.expiresAt)
    (hsame : b'.revocations.expiry? d.id = b.revocations.expiry? d.id) (retries : Nat) :
    InStep (liftM (retire d retries) : Operation (Except CallFault Bool)) b b' := by
  refine ⟨_, _, _, by rw [exec_lift, run_retire], ?_, h.add d.id hlive⟩
  rw [exec_lift, run_retire]
  simp only [RevocationList.add_fst, RevocationList.contains_eq, hsame]

theorem inStep_markRevoked (h : b.Forgot b') (v : Verified) :
    InStep (liftM (m.markRevoked v.claims v.details.id) : Operation Unit) b b' := by
  refine ⟨_, _, _, by rw [exec_lift, run_markRevoked], by rw [exec_lift, run_markRevoked], ?_⟩
  unfold marked
  split
  · simpa only [h.clock] using h.mark _ v.details.id b.clock
  · exact h

theorem inStep_refresh (h : b.Forgot b') (hdated : m.Dated b value)
    (hsame : m.verdict b' value = m.verdict b value) : InStep (m.refresh value) b b' := by
  have hverify : InStep (m.verify value) b b' :=
    inStep_of_eq h (exec_verify m b value) (by rw [exec_verify, hsame])
  unfold refresh
  refine hverify.bind fun verdict b₀ b₀' hb hb' _ => ?_
  rw [exec_verify] at hb hb'
  obtain ⟨hverdict, rfl⟩ := Prod.mk.inj hb
  obtain ⟨-, rfl⟩ := Prod.mk.inj hb'
  obtain rfl := Except.ok.inj (Outcome.done.inj hverdict)
  cases hv : m.verdict b value with
  | error f => exact inStep_of_eq h rfl rfl
  | ok v =>
    obtain ⟨hfound, hlive, hnew, -⟩ := verdict_ok hv
    have hlisted := expiry?_forgot h hdated hfound hlive
    simp only
    split
    · refine (inStep_issue h v.claims .access).bind fun access b₁ b₁' hb₁ hb₁' h₁ => ?_
      have hrefresh : InStep (tryCatch (m.issue v.claims .refresh) fun e => do
          m.discard v.claims [access]
          throw e) b₁ b₁' := by
        unfold InStep
        rw [exec_tryCatch_issue hb₁, exec_tryCatch_issue hb₁]
        exact inStep_issue h₁ v.claims .refresh
      refine hrefresh.bind fun refresh b₂ b₂' hb₂ hb₂' h₂ => ?_
      rw [exec_tryCatch_issue hb₁] at hb₂ hb₂'
      -- Both lists are still as they were when the value was verified.
      have hlist : b₂.revocations = b.revocations :=
        (exec_issue_revocations hb₂).trans (exec_issue_revocations hb₁)
      have hlist' : b₂'.revocations = b'.revocations :=
        (exec_issue_revocations hb₂').trans (exec_issue_revocations hb₁')
      have hclock : b₂.clock = b.clock := (clock_exec hb₂).trans (clock_exec hb₁)
      refine (inStep_retire h₂ (by rwa [hclock]) (by rw [hlist, hlist', hlisted]) _).bind
        fun new b₃ b₃' hb₃ _ h₃ => ?_
      rw [exec_lift, run_retire, RevocationList.add_fst, hlist, hnew] at hb₃
      obtain ⟨hwon, -⟩ := Prod.mk.inj hb₃
      obtain rfl := Except.ok.inj (Outcome.done.inj hwon)
      exact (inStep_markRevoked h₃ v).bind fun _ _ _ _ _ h₄ => inStep_of_eq h₄ rfl rfl
    · exact inStep_of_eq h rfl rfl

/-! ### Revocation -/

/-- The answer to a revocation is a matter of the record alone. -/
theorem revoke_fst_congr {st st' : TokenStore} {id : TokenId} (h : st'.find? id = st.find? id)
    (s : SubjectId) (t : Instant) : (st'.revoke s id t).1 = (st.revoke s id t).1 := by
  unfold TokenStore.revoke
  rw [h]
  cases st.find? id with
  | none => rfl
  | some r => simp only [apply_ite Prod.fst]

theorem inStep_strike (h : b.Forgot b') {id : TokenId} {r : TokenRecord}
    (hr : b.store.find? id = some r) (hr' : b'.store.find? id = some r)
    (hlive : b.clock < r.expiresAt) (now : Instant) :
    InStep (do
      let _ ← addRevocation id r.expiresAt
      let _ ← Operation.checked .ofStore (Procedure.boundCall (.revokeRecord r.subject id now)))
      b b' := by
  obtain ⟨new, hnew⟩ := owned_revoke hr now
  obtain ⟨new', hnew'⟩ := owned_revoke hr' now
  unfold InStep
  rw [exec_bind, exec_bind, addRevocation, exec_addRevocation, exec_addRevocation]
  simp only
  rw [exec_bind, exec_bind, exec_revokeRecord, exec_revokeRecord, hnew, hnew']
  exact ⟨.done (.ok ()), _, _, rfl, rfl, (h.add id hlive).mark r.subject id now⟩

theorem inStep_revoke (h : b.Forgot b') (value : String) : InStep (m.revoke value) b b' := by
  unfold revoke
  refine (inStep_now h).bind fun now b₀ b₀' hb _ h₀ => ?_
  rw [exec_now] at hb
  obtain ⟨hnow, rfl⟩ := Prod.mk.inj hb
  obtain rfl := Except.ok.inj (Outcome.done.inj hnow)
  cases m.backing with
  | signed k =>
    simp only
    cases k.decode value with
    | error f => exact inStep_of_eq h₀ rfl rfl
    | ok v =>
      simp only
      split
      · exact inStep_of_eq h₀ rfl rfl
      next hlive =>
        exact ⟨.done (.ok ()), _, _, rfl, rfl, h₀.add v.details.id (Instant.not_le.1 hlive)⟩
  | stored =>
    simp only
    split
    · unfold InStep
      rw [exec_bind, exec_bind, exec_findRecord, exec_findRecord]
      rcases h₀.record (OpaqueValue.id m.primitives value) with he | ⟨he, r, hr, hexpired⟩
      · rw [he]
        cases hr : b.store.find? (OpaqueValue.id m.primitives value) with
        | none => exact inStep_of_eq h₀ rfl rfl
        | some r =>
          simp only
          split
          · exact inStep_of_eq h₀ rfl rfl
          next hlive =>
            rw [TokenRecord.isExpired, decide_eq_true_eq, Instant.not_le] at hlive
            exact inStep_strike h₀ hr (he.trans hr) hlive b.clock
      · -- An expired record is left alone, and so is none.
        have hleft : r.isExpired b.clock = true := decide_eq_true hexpired
        rw [he, hr]
        simp only
        rw [if_pos hleft]
        exact inStep_of_eq h₀ rfl rfl
    · exact inStep_of_eq h₀ rfl rfl

theorem sameOf_struck {id : TokenId} (h : b.SameOf b' id) {r : TokenRecord}
    (hr : b.SameOf b' r.id) (subject : SubjectId) (now : Instant) :
    (struck b subject now r).SameOf (struck b' subject now r) id := by
  constructor
  · simp only [TokenManager.struck, TokenStore.find?_revoke, h.record]
  · simp only [TokenManager.struck, RevocationList.expiry?_add, h.listed, hr.listed]

theorem inStep_revokeEach (h : b.Forgot b') {subject : SubjectId} {now : Instant}
    {rs : List TokenRecord} (hlive : ∀ r ∈ rs, b.clock < r.expiresAt)
    (hsame : ∀ r ∈ rs, b.SameOf b' r.id) : InStep (revokeEach subject now rs) b b' := by
  induction rs generalizing b b' with
  | nil => exact inStep_of_eq h rfl rfl
  | cons r rs ih =>
    obtain ⟨hr, hrs⟩ := List.forall_mem_cons.1 hsame
    obtain ⟨hliver, hlivers⟩ := List.forall_mem_cons.1 hlive
    have hstruck : (struck b subject now r).Forgot (struck b' subject now r) :=
      (h.add r.id hliver).mark subject r.id now
    have hnew : (b'.revocations.add r.id r.expiresAt).1 =
        (b.revocations.add r.id r.expiresAt).1 := by
      simp only [RevocationList.add_fst, RevocationList.contains_eq, hr.listed]
    unfold InStep
    rw [exec_revokeEach_cons, exec_revokeEach_cons, revoke_fst_congr hr.record, hnew]
    cases owned (b.store.revoke subject r.id now).1 with
    | error f => exact ⟨_, _, _, rfl, rfl, hstruck⟩
    | ok new =>
      obtain ⟨o, b₁, b₁', hb₁, hb₁', h₁⟩ := ih hstruck hlivers fun r' hr' =>
        sameOf_struck (hrs r' hr') hr subject now
      simp only [hb₁, hb₁']
      exact ⟨_, _, _, rfl, rfl, h₁⟩

theorem inStep_revokeAll (h : b.Forgot b') (hbooked : m.backing = .stored → m.Booked b)
    (tenant : TenantId) (subject : SubjectId) : InStep (m.revokeAll tenant subject) b b' := by
  unfold revokeAll
  cases hbacking : m.backing with
  | signed k => exact inStep_of_eq h rfl rfl
  | stored =>
    simp only
    unfold InStep
    rw [exec_bind, exec_bind, exec_now, exec_now]
    simp only
    rw [exec_bind, exec_bind, exec_listRecords, exec_listRecords]
    simp only
    rw [h.clock, h.list_live]
    refine inStep_revokeEach h (fun r hr => ?_) fun r hr => ?_
    all_goals
      obtain ⟨hmem, hlive⟩ := List.mem_filter.1 hr
      rw [TokenRecord.isLive, Bool.and_eq_true, Bool.not_eq_true', Bool.not_eq_true',
        TokenRecord.isExpired, decide_eq_false_iff_not, Instant.not_le] at hlive
    · exact hlive.2
    · obtain ⟨⟨id, hfind⟩, -⟩ := TokenStore.mem_list.1 hmem
      rw [← TokenStore.id_of_find? hfind] at hfind
      have hnone : b.revocations.expiry? r.id = none := by
        rw [(hbooked hbacking).listed, hfind, Option.bind_some, TokenRecord.revokedUntil?,
          if_neg (by simp [hlive.1])]
      refine ⟨(h.record r.id).eq_of_live fun r' hr' => ?_,
        (h.listed r.id).eq_of_live fun t ht => ?_⟩
      · rw [hfind] at hr'
        exact Option.some.inj hr' ▸ hlive.2
      · rw [hnone] at ht
        cases ht

end TokenManager

end AccessControl
