import AccessControl.Proofs.Token.Courses
import AccessControl.Proofs.Token.Lineage
import AccessControl.Proofs.Token.RevokeAll
import AccessControl.Proofs.Token.Rotation

/-!
# Logging out beside rotations

One call revokes all tokens of a subject while any number of rotations are under way, and the clock
never goes backwards. The call works from a list of the records that were there at one moment. Of
these none verifies any more when it has returned, and neither does any token that was there when it
began; but a rotation may keep its records after the list was taken and retire its own token before
the call gets to it. Only the pairs of such rotations survive (`Pool.survivors_of_logout`), and they
do survive (`Pool.pair_outlives_logout`).
-/

namespace AccessControl

/-- The values drawn from `first` on, up to `last`, name different records, none of which is in the
store. -/
structure Supply.NewTo (s : Supply) (p : Primitives) (st : TokenStore) (first last : Nat) :
    Prop where
  distinct : s.DistinctFrom p first last
  new : ∀ i, first ≤ i → i < last → st.find? (OpaqueValue.id p (s.value i)) = none

theorem Supply.NewTo.mono {s : Supply} {p : Primitives} {st : TokenStore} {first n n' : Nat}
    (h : s.NewTo p st first n') (hle : n ≤ n') : s.NewTo p st first n :=
  ⟨fun i j hi hin hj hjn => h.distinct i j hi (by omega) hj (by omega),
    fun i hi hin => h.new i hi (by omega)⟩

namespace Pool

variable {ι : Type} [DecidableEq ι] {m : TokenManager} {t : TenantId} {s : SubjectId} {a i : ι}
  {start before b : Backend} {past : ι → List Exchange} {q : Ask} {id : TokenId}

/-- A record of the identifier was there at the start, or a call has kept one. -/
def Used (start : Backend) (past : ι → List Exchange) (id : TokenId) : Prop :=
  (start.store.find? id).isSome ∨ ∃ i, Trace (·.Keeps id) (past i)

theorem Used.after (h : Used start past id) (i : ι) (x : Exchange) :
    Used start (after past i x) id := by
  rcases h with h | ⟨j, hj⟩
  · exact .inl h
  · exact .inr ⟨j, trace_after.2 (.inl hj)⟩

/-- The call has been told the list of the records of the subject. -/
def Listed (t : TenantId) (s : SubjectId) (past : List Exchange) (l : List TokenRecord) : Prop :=
  Trace (· = ⟨.listRecords t s, .ok l⟩) past

theorem eq_list_of_answer {b : Backend} {q : Ask} {l : List TokenRecord}
    (h : (⟨q, (b.answer q).1⟩ : Exchange) = ⟨.listRecords t s, .ok l⟩) :
    l = b.store.list t s ∧ (b.answer q).2 = b := by
  cases q with
  | listRecords t' s' =>
    cases h
    exact ⟨rfl, rfl⟩
  | _ => cases h

/-- The record was there when the call `a` began, or `a` has been told of it. -/
def Watched (t : TenantId) (s : SubjectId) (before : Backend) (past : List Exchange)
    (r : TokenRecord) : Prop :=
  before.store.find? r.id = some r ∨ ∃ l, Listed t s past l ∧ r ∈ l

/-- What holds at every moment from `before` on, where the call `a` begins to revoke all tokens of
the subject. -/
structure Snapshot (m : TokenManager) (t : TenantId) (s : SubjectId) (a : ι)
    (start before b : Backend) (past : ι → List Exchange) : Prop where
  stocked : Stocked m s start b past
  /-- Every record was there at the start, or is for the subject. -/
  origin : ∀ id r, b.store.find? id = some r →
    (∃ r₀, start.store.find? id = some r₀ ∧ r₀.Becomes r) ∨
      (∃ i, Trace (·.Keeps id) (past i)) ∧ r.claims.subject? = some s
  watched : ∀ r, Watched t s before (past a) r → Used start past r.id ∧
    ∀ r', b.store.find? r.id = some r' → r.Becomes r'
  /-- What was there before is listed, if it still is there when the list is taken. -/
  caught : ∀ r, before.store.find? r.id = some r → r.tenant = t → r.subject = s →
    ∀ l, Listed t s (past a) l → (b.store.find? r.id).isSome → ∃ r' ∈ l, r'.id = r.id
  reported : ∀ i id, Trace (·.Reports id) (past i) → b.revocations.contains id = true
  winning : ∀ id, Winning id b past
  shown : ∀ i time, Trace (·.Shows time) (past i) → time ≤ b.clock

omit [DecidableEq ι] in
theorem Snapshot.used (h : Snapshot m t s a start before b past) {r : TokenRecord}
    (hr : b.store.find? id = some r) : Used start past id := by
  rcases h.origin id r hr with ⟨r₀, hr₀, -⟩ | ⟨hkept, -⟩
  · exact .inl (by rw [hr₀]; rfl)
  · exact .inr hkept

omit [DecidableEq ι] in
/-- No record is kept under an identifier that was used before. -/
theorem Snapshot.unused (h : Snapshot m t s a start before b past)
    (hnew : start.supply.NewTo m.primitives start.store start.drawn b.drawn) {x : String}
    (hlast : (past i).getLast? = some ⟨.freshValue, x⟩) :
    ¬Used start past (OpaqueValue.id m.primitives x) := by
  rintro (hstart | ⟨j, hj⟩)
  · obtain ⟨n, hle, hlt, rfl⟩ := h.stocked.drawing.range i x (draws_of_getLast? hlast)
    rw [h.stocked.supply, hnew.new n hle hlt] at hstart
    cases hstart
  · exact h.stocked.drawing.unkept hlast j hj

omit [DecidableEq ι] in
/-- A question leaves the record of a used identifier as it is, or marks or drops it. -/
theorem Snapshot.becomes (h : Snapshot m t s a start before b past)
    (hnew : start.supply.NewTo m.primitives start.store start.drawn b.drawn)
    (hq : q.Tidy m s (past i)) (hused : Used start past id) {r' : TokenRecord}
    (hr' : (b.answer q).2.store.find? id = some r') :
    ∃ r, b.store.find? id = some r ∧ r.Becomes r' := by
  rcases Backend.found_of_answer hr' with ⟨rfl, rfl⟩ | hfound
  · obtain ⟨-, x, hlast, hdigest⟩ := hq
    exact absurd (hdigest ▸ hused) (h.unused hnew hlast)
  · exact hfound

/-! ### One step -/

/-- The rules for the calls: a value that is presented stands for a token of the subject. -/
abbrev holderRules (m : TokenManager) (s : SubjectId) (q : TokenRequest) : Protocol :=
  q.course m s fun value w =>
    w.details.id = OpaqueValue.id m.primitives value ∧ w.claims.subject? = some s

/-- One call revokes all tokens of the subject, and the others rotate tokens. -/
structure LogsOut (t : TenantId) (s : SubjectId) (a : ι) (requests : ι → TokenRequest) : Prop where
  logout : requests a = .revokeAll t s
  rotations : ∀ i, i ≠ a → ∃ value, requests i = .refresh value

variable {requests : ι → TokenRequest}

theorem LogsOut.hasCourse (h : LogsOut t s a requests) (i : ι) : (requests i).HasCourse := by
  by_cases hi : i = a
  · rw [hi, h.logout]
    exact .revokeAll t s
  · obtain ⟨value, hvalue⟩ := h.rotations i hi
    rw [hvalue]
    exact .refresh value

/-- Nothing is dropped from the revocation list. -/
theorem LogsOut.ne_cleanup (h : LogsOut t s a requests) {past : List Exchange}
    (hmay : (holderRules m s (requests i)).may past q) (time : Instant) :
    q ≠ .cleanupRevocations time := by
  rintro rfl
  by_cases hi : i = a
  · rw [hi, h.logout] at hmay
    exact hmay
  · obtain ⟨value, hvalue⟩ := h.rotations i hi
    rw [hvalue] at hmay
    exact hmay

theorem Snapshot.origin_answer (h : Snapshot m t s a start before b past)
    (hmay : (holderRules m s (requests i)).may (past i) q) (id : TokenId) (r : TokenRecord)
    (hr : (b.answer q).2.store.find? id = some r) :
    (∃ r₀, start.store.find? id = some r₀ ∧ r₀.Becomes r) ∨
      (∃ j, Trace (·.Keeps id) (after past i ⟨q, (b.answer q).1⟩ j)) ∧
        r.claims.subject? = some s := by
  rcases Backend.found_of_answer hr with ⟨rfl, rfl⟩ | ⟨r', hr', hbecomes⟩
  · refine .inr ⟨⟨i, trace_after.2 (.inr ⟨rfl, rfl⟩)⟩, ?_⟩
    generalize requests i = request at hmay
    cases request with
    | refresh value =>
      obtain ⟨-, ⟨v, ⟨-, hsubject⟩, hclaims⟩, -⟩ := hmay
      rw [hclaims, hsubject]
    | _ => exact hmay.elim
  · rcases h.origin id r' hr' with ⟨r₀, hr₀, hbecomes'⟩ | ⟨⟨j, hj⟩, hsubject⟩
    · exact .inl ⟨r₀, hr₀, hbecomes'.trans hbecomes⟩
    · obtain ⟨mark, rfl⟩ := hbecomes.eq
      exact .inr ⟨⟨j, trace_after.2 (.inl hj)⟩, hsubject⟩

theorem Snapshot.watched_answer (h : Snapshot m t s a start before b past)
    (hnew : start.supply.NewTo m.primitives start.store start.drawn b.drawn)
    (hq : q.Tidy m s (past i)) {r : TokenRecord}
    (hr : Watched t s before (after past i ⟨q, (b.answer q).1⟩ a) r) :
    Used start (after past i ⟨q, (b.answer q).1⟩) r.id ∧
      ∀ r', (b.answer q).2.store.find? r.id = some r' → r.Becomes r' := by
  -- The record was watched before, or the list is read in this step.
  have hold : Watched t s before (past a) r ∨ r ∈ b.store.list t s ∧ (b.answer q).2 = b := by
    rcases hr with hr | ⟨l, hl, hr⟩
    · exact .inl (.inl hr)
    · rcases trace_after.1 hl with hl | ⟨-, hl⟩
      · exact .inl (.inr ⟨l, hl, hr⟩)
      · obtain ⟨rfl, hsame⟩ := eq_list_of_answer hl
        exact .inr ⟨hr, hsame⟩
  rcases hold with hr | ⟨hr, hsame⟩
  · obtain ⟨hused, hbecomes⟩ := h.watched r hr
    refine ⟨hused.after _ _, fun r' hr' => ?_⟩
    obtain ⟨r'', hr'', hmark⟩ := h.becomes hnew hq hused hr'
    exact (hbecomes r'' hr'').trans hmark
  · obtain ⟨⟨id, hfind⟩, -⟩ := TokenStore.mem_list.1 hr
    obtain rfl := TokenStore.id_of_find? hfind
    refine ⟨(h.used hfind).after _ _, fun r' hr' => ?_⟩
    rw [hsame, hfind] at hr'
    obtain rfl := Option.some.inj hr'
    exact .refl r

theorem Snapshot.caught_answer (h : Snapshot m t s a start before b past)
    (hnew : start.supply.NewTo m.primitives start.store start.drawn b.drawn)
    (hq : q.Tidy m s (past i)) {r : TokenRecord} (hr : before.store.find? r.id = some r)
    (htenant : r.tenant = t) (hsubject : r.subject = s) {l : List TokenRecord}
    (hl : Listed t s (after past i ⟨q, (b.answer q).1⟩ a) l)
    (hthere : ((b.answer q).2.store.find? r.id).isSome) : ∃ r' ∈ l, r'.id = r.id := by
  obtain ⟨r', hr'⟩ := Option.isSome_iff_exists.1 hthere
  obtain ⟨hused, hbecomes⟩ := h.watched r (.inl hr)
  obtain ⟨r'', hr'', -⟩ := h.becomes hnew hq hused hr'
  rcases trace_after.1 hl with hl | ⟨-, hl⟩
  · exact h.caught r hr htenant hsubject l hl (by rw [hr'']; rfl)
  · obtain ⟨rfl, -⟩ := eq_list_of_answer hl
    refine ⟨r'', TokenStore.mem_list.2 ⟨⟨_, hr''⟩, ?_⟩, TokenStore.id_of_find? hr''⟩
    obtain ⟨mark, rfl⟩ := (hbecomes r'' hr'').eq
    exact ⟨htenant, hsubject⟩

/-- No question that the calls may ask breaks the invariant. -/
theorem Snapshot.answer (h : Snapshot m t s a start before b past)
    (hrequests : LogsOut t s a requests)
    (hnew : start.supply.NewTo m.primitives start.store start.drawn (b.answer q).2.drawn)
    (hmay : (holderRules m s (requests i)).may (past i) q) :
    Snapshot m t s a start before (b.answer q).2 (after past i ⟨q, (b.answer q).1⟩) where
  stocked := h.stocked.answer (fun _ => hnew.distinct) (TokenRequest.tidy_of_course hmay)
  origin := h.origin_answer hmay
  watched _ := h.watched_answer (hnew.mono (b.drawn_le_answer q)) (TokenRequest.tidy_of_course hmay)
  caught _ hr htenant hsubject _ := h.caught_answer (hnew.mono (b.drawn_le_answer q))
    (TokenRequest.tidy_of_course hmay) hr htenant hsubject
  reported j id hj := by
    rcases trace_after.1 hj with hj | ⟨-, hreports⟩
    · exact contains_answer (hrequests.ne_cleanup hmay) (h.reported j id hj)
    · cases q with
      | addRevocation id' time =>
        obtain rfl : id' = id := hreports
        show (b.revocations.add id' time).2.contains id' = true
        simp [RevocationList.contains_add]
      | _ => exact hreports.elim
  winning id := (h.winning id).answer (hrequests.ne_cleanup hmay)
  shown j time hj := by
    rw [b.answer_clock]
    rcases trace_after.1 hj with hj | ⟨-, hj⟩
    · exact h.shown j time hj
    · cases q with
      | now =>
        obtain rfl : b.clock = time := hj
        exact Instant.le_refl _
      | _ => exact hj.elim

omit [DecidableEq ι] in
theorem Snapshot.clock (h : Snapshot m t s a start before b past) {time : Instant}
    (hle : b.clock ≤ time) : Snapshot m t s a start before { b with clock := time } past where
  stocked := h.stocked.clock time
  origin := h.origin
  watched := h.watched
  caught := h.caught
  reported := h.reported
  winning id := { h.winning id with }
  shown i time' hshown := Instant.le_trans (h.shown i time' hshown) hle

/-! ### All orders of steps -/

variable {pool pool₁ : Pool ι TokenReply}

omit [DecidableEq ι] in
theorem Snapshot.begin (m : TokenManager) (t : TenantId) (s : SubjectId) (a : ι) (start : Backend) :
    Snapshot m t s a start start start (fun _ : ι => []) where
  stocked := stocked_nil m s start
  origin id r hr := .inl ⟨r, hr, .refl r⟩
  watched r hr := by
    rcases hr with hr | ⟨l, hl, -⟩
    · refine ⟨.inl (by rw [hr]; rfl), fun r' hr' => ?_⟩
      obtain rfl := Option.some.inj (hr.symm.trans hr')
      exact .refl r
    · exact absurd hl trace_nil
  caught r hr _ _ l hl := absurd hl trace_nil
  reported i id h := absurd h trace_nil
  winning id := ⟨fun _ h => absurd h trace_nil, fun _ _ h => absurd h trace_nil⟩
  shown i time h := absurd h trace_nil

omit [DecidableEq ι] in
/-- The call may begin at any moment. -/
theorem Snapshot.rebase (h : Snapshot m t s a start before b past) (hidle : past a = []) :
    Snapshot m t s a start b b past where
  stocked := h.stocked
  origin := h.origin
  watched r hr := by
    rcases hr with hr | ⟨l, hl, -⟩
    · refine ⟨h.used hr, fun r' hr' => ?_⟩
      obtain rfl := Option.some.inj (hr.symm.trans hr')
      exact .refl r
    · rw [Listed, hidle] at hl
      exact absurd hl trace_nil
  caught r hr _ _ l hl := by
    rw [Listed, hidle] at hl
    exact absurd hl trace_nil
  reported := h.reported
  winning := h.winning
  shown := h.shown

/-- The calls keep to their rules. -/
abbrev Orderly (m : TokenManager) (s : SubjectId) (requests : ι → TokenRequest)
    (pool : Pool ι TokenReply) : Prop :=
  ∀ i, (pool.rest i).Follows (holderRules m s (requests i))
    ((requests i).Concludes m fun value w =>
      w.details.id = OpaqueValue.id m.primitives value ∧ w.claims.subject? = some s) (pool.past i)

theorem onward_snapshot (hrequests : LogsOut t s a requests)
    (hholder : ∀ i value r, requests i = .refresh value →
      start.store.find? (OpaqueValue.id m.primitives value) = some r → r.claims.subject? = some s)
    (hreaches : Onward pool₁ pool)
    (hnew : start.supply.NewTo m.primitives start.store start.drawn pool.backend.drawn)
    (h : Snapshot m t s a start before pool₁.backend pool₁.past)
    (hcalls : Orderly m s requests pool₁) :
    Snapshot m t s a start before pool.backend pool.past ∧ Orderly m s requests pool := by
  refine Turn.follows hreaches
    (fun b => start.supply.NewTo m.primitives start.store start.drawn b.drawn) ?_ (fun b t h => h) ?_
    (fun b past t hle h => h.clock hle) h hcalls hnew
  · rintro b _ q _ _ ⟨-, rfl⟩ hnew
    exact hnew.mono (b.drawn_le_answer q)
  · rintro b _ past i q _ _ ⟨rfl, rfl⟩ hnew h hmay
    refine ⟨TokenRequest.expect_answer (fun value hvalue _ r hr => ?_) hmay,
      h.answer hrequests hnew hmay⟩
    refine ⟨TokenStore.id_of_find? hr, ?_⟩
    rcases h.origin _ r hr with ⟨r₀, hr₀, hbecomes⟩ | ⟨-, hsubject⟩
    · obtain ⟨mark, rfl⟩ := hbecomes.eq
      exact hholder i value r₀ hvalue hr₀
    · exact hsubject

theorem orderly_start (hstored : m.backing = .stored) (hrequests : LogsOut t s a requests)
    (start : Backend) : Orderly m s requests (.start start fun i => m.serve (requests i)) := by
  intro i
  refine TokenRequest.follows_course (hrequests.hasCourse i) (fun value w hw => hw.2)
    fun k value w _ hk => ?_
  rw [hstored] at hk
  cases hk

omit [DecidableEq ι] in
/-- Of the records that were listed none verifies, once those that were live have been reported. -/
theorem Snapshot.struck (h : Snapshot m t s a start before b past) (hstored : m.backing = .stored)
    (hdone : TokenManager.LoggedOut t s (past a)) :
    ∃ l, Listed t s (past a) l ∧ ∀ r ∈ l, ∀ value v, OpaqueValue.id m.primitives value = r.id →
      (b.exec (m.verify value)).1 ≠ .done (.ok (.ok v)) := by
  obtain ⟨now, l, hshows, hl, hreported⟩ := hdone
  refine ⟨l, ⟨_, hl, rfl⟩, fun r hr value v hid hvalid => ?_⟩
  obtain ⟨-, r', hr', hlive, hclean, -⟩ := (TokenManager.verify_ok_iff hstored).1 hvalid
  rw [hid] at hr' hclean
  obtain ⟨-, hbecomes⟩ := h.watched r (.inr ⟨l, ⟨_, hl, rfl⟩, hr⟩)
  have hmark := hbecomes r' hr'
  simp only [TokenManager.revoked, TokenManager.hasStore, hstored, Bool.true_and,
    Bool.or_eq_false_iff, TokenStore.isRevoked, hr', Option.any_some] at hclean
  obtain ⟨hunmarked, hunlisted⟩ := hclean
  have hunmarked' : r.isRevoked = false := by
    cases hrevoked : r.isRevoked with
    | false => rfl
    | true => rw [hmark.isRevoked hrevoked] at hunmarked; cases hunmarked
  have hexpiry : r'.expiresAt = r.expiresAt := by
    obtain ⟨mark, rfl⟩ := hmark.eq
    rfl
  have hlisted : r.isLive now = true := by
    have hlater := Instant.lt_of_le_of_lt (h.shown a now hshows) (hexpiry ▸ hlive)
    simp [TokenRecord.isLive, TokenRecord.isExpired, hunmarked', Instant.not_le.2 hlater]
  rw [h.reported a r.id (hreported r hr hlisted)] at hunlisted
  cases hunlisted

/-- The call `i`, which rotated `value`, has retired it before the call `a` got to it, and `a` was not
told of the record of `x`. -/
structure Escapes (m : TokenManager) (t : TenantId) (s : SubjectId) (a i : ι) (value x : String)
    (pool : Pool ι TokenReply) : Prop where
  pair : ∃ pair, pool.rest i = .done (.pair (.ok pair))
  first : Trace (·.Wins (OpaqueValue.id m.primitives value)) (pool.past i)
  second : ∀ time new,
    ⟨.addRevocation (OpaqueValue.id m.primitives value) time, .ok new⟩ ∈ pool.past a → new = false
  unlisted : ∃ l, Listed t s (pool.past a) l ∧ ∀ r ∈ l, r.id ≠ OpaqueValue.id m.primitives x

omit [DecidableEq ι] in
theorem Snapshot.escapes (h : Snapshot m t s a start before pool.backend pool.past)
    (hstored : m.backing = .stored) (hrequests : LogsOut t s a requests)
    (hnew : start.supply.NewTo m.primitives start.store start.drawn pool.backend.drawn)
    (hcalls : Orderly m s requests pool) (hdone : TokenManager.LoggedOut t s (pool.past a))
    {value x : String} {v : Verified} {reply : TokenReply} (hvalue : requests i = .refresh value)
    (hdrawn : Trace (·.Draws x) (pool.past i)) (hreturned : pool.rest i = .done reply)
    (hvalid : (pool.backend.exec (m.verify x)).1 = .done (.ok (.ok v))) :
    Escapes m t s a i value x pool := by
  obtain ⟨-, r, hr, -⟩ := (TokenManager.verify_ok_iff hstored).1 hvalid
  -- The record of the value was kept by the call that has drawn it.
  have hkept : Trace (·.Keeps (OpaqueValue.id m.primitives x)) (pool.past i) := by
    rcases h.origin _ r hr with ⟨r₀, hr₀, -⟩ | ⟨⟨j, hj⟩, -⟩
    · obtain ⟨k, hle, hlt, rfl⟩ := h.stocked.drawing.range i x hdrawn
      rw [h.stocked.supply, hnew.new k hle hlt] at hr₀
      cases hr₀
    · obtain ⟨y, hy, hid⟩ := h.stocked.drawing.drawn j _ hj
      obtain rfl := h.stocked.drawing.apart i j x y hdrawn hy hid
      exact hj
  have hends := hcalls i
  rw [hreturned, hvalue] at hends
  obtain ⟨result, rfl, hconcluded⟩ := hends
  cases hconcluded with
  | lost hdropped =>
    rw [h.stocked.storing.gone i _ (hdropped _ hkept)] at hr
    cases hr
  | @won w pair hw hexchanged =>
    have hwins : Trace (·.Wins (OpaqueValue.id m.primitives value)) (pool.past i) := by
      cases hexchanged with
      | won _ _ hwins _ => exact hw.1 ▸ hwins
    obtain ⟨l, hl, hstruck⟩ := h.struck hstored hdone
    refine ⟨⟨pair, hreturned⟩, hwins, fun time new hreport => ?_, l, hl, fun r' hr' he => ?_⟩
    · cases new with
      | false => rfl
      | true =>
        have hia : i = a := (h.winning _).one i a hwins ⟨_, hreport, rfl⟩
        rw [hia, hrequests.logout] at hvalue
        cases hvalue
    · exact hstruck r' hr' x v he.symm hvalid

/-- A call that revokes all tokens of a subject, and any number of rotations of tokens of the
subject, in any order of their steps, while the clock never goes backwards. When the call has
returned, no token that was there for the subject when it began verifies as valid; and of the tokens
that were issued by rotations that have returned only those verify whose rotation has retired its own
token first, and which were issued too late for the list that the call works from. -/
theorem survivors_of_logout (hstored : m.backing = .stored) (hrequests : LogsOut t s a requests)
    (hholder : ∀ i value r, requests i = .refresh value →
      start.store.find? (OpaqueValue.id m.primitives value) = some r → r.claims.subject? = some s)
    (hbefore : Onward (.start start fun i => m.serve (requests i)) pool₁) (hidle : pool₁.past a = [])
    (hafter : Onward pool₁ pool)
    (hnew : start.supply.NewTo m.primitives start.store start.drawn pool.backend.drawn) {n : Nat}
    (hdone : pool.rest a = .done (.count (.ok n))) :
    (∀ value r v, pool₁.backend.store.find? (OpaqueValue.id m.primitives value) = some r →
      r.tenant = t → r.subject = s → (pool.backend.exec (m.verify value)).1 ≠ .done (.ok (.ok v))) ∧
    (∀ i value x v reply, requests i = .refresh value → Trace (·.Draws x) (pool.past i) →
      pool.rest i = .done reply → (pool.backend.exec (m.verify x)).1 = .done (.ok (.ok v)) →
      Escapes m t s a i value x pool) ∧
    ∀ i value pair, requests i = .refresh value → pool.rest i = .done (.pair (.ok pair)) →
      Trace (·.Draws pair.access.value) (pool.past i) ∧
        Trace (·.Draws pair.refresh.value) (pool.past i) := by
  obtain ⟨hbegun, hcalls₁⟩ := onward_snapshot hrequests hholder hbefore (hnew.mono hafter.drawn_le)
    (.begin m t s a start) (orderly_start hstored hrequests start)
  obtain ⟨h, hcalls⟩ :=
    onward_snapshot hrequests hholder hafter hnew (hbegun.rebase hidle) hcalls₁
  have hloggedOut : TokenManager.LoggedOut t s (pool.past a) := by
    have hends := hcalls a
    rw [hdone, hrequests.logout] at hends
    obtain ⟨result, hresult, hout⟩ := hends
    exact hout n (TokenReply.count.inj hresult).symm
  refine ⟨fun value r v hr htenant hsubject hvalid => ?_,
    fun i value x v reply hvalue hdrawn hreturned hvalid =>
      h.escapes hstored hrequests hnew hcalls hloggedOut hvalue hdrawn hreturned hvalid,
    fun i value pair hvalue hreturned => ?_⟩
  · obtain ⟨-, r', hr', -⟩ := (TokenManager.verify_ok_iff hstored).1 hvalid
    have hid := TokenStore.id_of_find? hr
    obtain ⟨l, hl, hstruck⟩ := h.struck hstored hloggedOut
    obtain ⟨r'', hr'', hsame⟩ := h.caught r (hid ▸ hr) htenant hsubject l hl (by rw [hid, hr']; rfl)
    exact hstruck r'' hr'' value v (hsame.trans hid).symm hvalid
  · have hends := hcalls i
    rw [hreturned, hvalue] at hends
    obtain ⟨result, hresult, hconcluded⟩ := hends
    obtain rfl := TokenReply.pair.inj hresult
    cases hconcluded with
    | won _ hexchanged =>
      cases hexchanged with
      | won _ _ _ hdrawn => exact hdrawn hstored

end Pool

namespace TokenManager

open Procedure

/-- What is left of a call that revokes all tokens of a subject when it has been told of the
records. -/
def strikeListed (s : SubjectId) :
    Instant × Except CallFault (List TokenRecord) → Procedure TokenReply
  | (_, .error f) => .done (.count (.error (.ofStore f)))
  | (now, .ok l) => (revokeEach s now (l.filter (·.isLive now))).run.bind fun r => .done (.count r)

theorem serve_revokeAll {m : TokenManager} (hstored : m.backing = .stored) (t : TenantId)
    (s : SubjectId) :
    m.serve (.revokeAll t s) =
      (ask .now false fun now => ask (.listRecords t s) true fun l => done (now, l)).bind
        (strikeListed s) := by
  show (m.revokeAll t s).run.bind _ = _
  rw [run_revokeAll_stored hstored]
  refine congrArg (ask .now false) (funext fun now => ?_)
  refine congrArg (ask _ true) (funext fun listed => ?_)
  cases listed <;> rfl

end TokenManager

namespace Sample

/-! ### A rotation between the list and the reports -/

open TokenManager

variable (p : Primitives)

/-- One call revokes all tokens of a subject, and another one rotates its token. -/
def departures : Bool → TokenRequest
  | true => .revokeAll ⟨"acme"⟩ ⟨"alice"⟩
  | false => .refresh (token p .refresh).value

theorem logsOut_departures : Pool.LogsOut ⟨"acme"⟩ ⟨"alice"⟩ true (departures p) where
  logout := rfl
  rotations i hi := by
    cases i with
    | true => exact absurd rfl hi
    | false => exact ⟨_, rfl⟩

abbrev departure : Pool Bool TokenReply :=
  .start (issued p .refresh) fun i => (manager p).serve (departures p i)

/-- What is left of the call when it has been told of the token. -/
def told : Procedure TokenReply :=
  strikeListed ⟨"alice"⟩
    ((issued p .refresh).clock, .ok ((issued p .refresh).store.list ⟨"acme"⟩ ⟨"alice"⟩))

theorem run_told (b : Backend) :
    b.run (told p) =
      let struck := b.exec (revokeEach ⟨"alice"⟩ (issued p .refresh).clock
        [(token p .refresh).record claims])
      (struck.1.map .count, struck.2) := by
  have hlive := liveRecords_issued p
  unfold Backend.liveRecords at hlive
  rw [told, strikeListed, hlive, Backend.run_reply]

/-- A token that is there is struck. -/
theorem told_strikes {p : Primitives} {b : Backend}
    (hbears : (manager p).Bears b (token p .refresh) claims)
    (hissued : (manager p).Issued b (token p .refresh))
    (hlive : b.clock < (token p .refresh).expiresAt) :
    ∃ n, b.run (told p) = (.done (.count (.ok n)), struck b ⟨"alice"⟩ (issued p .refresh).clock
      ((token p .refresh).record claims)) := by
  obtain ⟨r, hr⟩ := hissued.kept rfl hlive
  obtain ⟨mark, rfl⟩ := hbears.record rfl r hr
  obtain ⟨new, hnew⟩ := owned_revoke hr (issued p .refresh).clock
  have hmark : Backend.owned (b.store.revoke ⟨"alice"⟩ ((token p .refresh).record claims).id
    (issued p .refresh).clock).1 = .ok new := hnew
  have htold := run_told p b
  rw [exec_revokeEach_cons, hmark] at htold
  exact ⟨_, htold⟩

/-- Both new tokens verify when the one that they were issued for is struck afterwards. -/
theorem valid_beside_struck {p : Primitives} (hdistinct : Supply.counting.Distinct p 3)
    {pair : TokenPair} {b : Backend}
    (h : (manager p).Rotates (token p .refresh).value (issued p .refresh) (.done (.ok pair)) b)
    {t : Token} (ht : t ∈ [pair.access, pair.refresh]) (s : SubjectId) (now : Instant) :
    ((struck b s now ((token p .refresh).record claims)).exec ((manager p).verify t.value)).1 =
      .done (.ok (.ok ⟨claims, t.details⟩)) := by
  have hplain : claims.Plain := Claims.plain_of_check rfl (by decide) (by decide)
  have hread : (⟨1700000000, 0⟩ : Instant).IsReading := by decide
  have hepoch : 0 ≤ (⟨1700000000, 0⟩ : Instant).seconds := by decide
  have hdistinct₁ : Supply.counting.Distinct p 1 := hdistinct.mono (by decide)
  have hbears := (line_token hdistinct₁).bears _ (List.mem_singleton_self _)
  obtain ⟨b₁, b₂, hex, hb⟩ := h.exchanges hbears hplain hdistinct₁
  have hchanges : (manager p).Changes b₂ b := hb ▸ changes_retired ..
  have hagrees : ∀ id, id ≠ (token p .refresh).id → b₂.Agrees b id := by
    intro id hne
    rw [hb]
    exact agrees_retired b₂ (by rwa [shown_id])
  have hclock : b.clock = b₂.clock := by rw [hb]; rfl
  have hdrawn : b.drawn = b₂.drawn := by rw [hb]; rfl
  have hvalid : (manager p).verdict (struck b s now ((token p .refresh).record claims)) t.value =
      .ok ⟨claims, t.details⟩ :=
    hex.valid_after (lifetime_pos (p := p) (s := .opaqueValues) rfl) hread hepoch hdistinct hplain
      hbears.drew (fun _ _ _ => rfl) (hchanges.trans (changes_struck ..))
      (fun id hne => (hagrees id hne).trans (agrees_struck b s now hne)) hclock hdrawn t ht
  rw [exec_verify, hvalid]

/-- The call goes through its list when the token has been rotated. -/
theorem rotated_beside_logout {p : Primitives} (hdistinct : Supply.counting.Distinct p 3) :
    ∃ (pool : Pool Bool TokenReply) (pair : TokenPair) (n : Nat),
      Pool.Onward (departure p) pool ∧ pool.backend.drawn = 3 ∧
      pool.rest true = .done (.count (.ok n)) ∧ pool.rest false = .done (.pair (.ok pair)) ∧
      ∀ t ∈ [pair.access, pair.refresh],
        (pool.backend.exec ((manager p).verify t.value)).1 =
          .done (.ok (.ok ⟨claims, t.details⟩)) := by
  obtain ⟨pair, b, hexec, hrotates, hdrawn⟩ := refresh_first p
  -- The call is told of the token before it is rotated.
  have hbegins : (departure p).rest true = _ := serve_revokeAll rfl ⟨"acme"⟩ ⟨"alice"⟩
  have hasked : (departure p).backend.run (.ask .now false fun now =>
      .ask (.listRecords ⟨"acme"⟩ ⟨"alice"⟩) true fun l => .done (now, l)) =
    (.done ((issued p .refresh).clock, .ok ((issued p .refresh).store.list ⟨"acme"⟩ ⟨"alice"⟩)),
      issued p .refresh) := rfl
  obtain ⟨past, htold⟩ := Pool.onward_alone hbegins hasked
  let rest := Function.update (departure p).rest true (told p)
  obtain ⟨past₁, hrotated⟩ := Pool.onward_done past rest false (run_first hexec)
  have hdistinct₁ : Supply.counting.Distinct p 1 := hdistinct.mono (by decide)
  have hline := (line_token hdistinct₁).changes hrotates.changes (hdrawn ▸ hdistinct)
  obtain ⟨n, hstruck⟩ := told_strikes (hline.bears _ (List.mem_singleton_self _))
    (hline.issued _ (List.mem_singleton_self _)) (hrotates.clock_eq ▸ (presented p).live)
  obtain ⟨past₂, hended⟩ := Pool.onward_done past₁
    (Function.update rest false (.done (.pair (.ok pair)))) true hstruck
  exact ⟨_, pair, n, (htold.trans hrotated).trans hended, hdrawn, rfl, rfl,
    fun t ht => valid_beside_struck hdistinct hrotates ht ..⟩

theorem newTo_issued {p : Primitives} {n : Nat} (hfresh : Supply.counting.Fresh p n) :
    Supply.counting.NewTo p (issued p .refresh).store 1 n where
  distinct i j _ hin _ hjn := hfresh.distinct i hin j hjn
  new i hi hin := by
    have hne : OpaqueValue.id p (Supply.counting.value i) ≠ (token p .refresh).id := fun he => by
      have := hfresh.distinct i hin 0 (by omega) he
      omega
    show ((TokenStore.empty).insert ((token p .refresh).record claims)).find? _ = none
    rw [TokenStore.find?_insert, Token.record, if_neg hne]
    rfl

end Sample

open Sample in
/-- A pair that is issued while its subject is logged out verifies afterwards. -/
theorem Pool.pair_outlives_logout :
    ∃ (pool : Pool Bool TokenReply) (pair : TokenPair) (n : Nat),
      Pool.Onward (departure .standard) pool ∧
      pool.rest true = .done (.count (.ok n)) ∧ pool.rest false = .done (.pair (.ok pair)) ∧
      ∀ t ∈ [pair.access, pair.refresh],
        (pool.backend.exec ((manager .standard).verify t.value)).1 =
          .done (.ok (.ok ⟨claims, t.details⟩)) := by
  obtain ⟨pool, pair, n, hreaches, -, hcount, hpair, hvalid⟩ :=
    rotated_beside_logout (distinct_four.mono (Nat.le_succ 3))
  exact ⟨pool, pair, n, hreaches, hcount, hpair, hvalid⟩

open Sample in
theorem Pool.escapes_logout :
    ∃ (pool : Pool Bool TokenReply) (pair : TokenPair) (n : Nat),
      pool.rest true = .done (.count (.ok n)) ∧
      (∀ v, (pool.backend.exec ((manager .standard).verify (token .standard .refresh).value)).1 ≠
        .done (.ok (.ok v))) ∧
      Escapes (manager .standard) ⟨"acme"⟩ ⟨"alice"⟩ true false (token .standard .refresh).value
        pair.refresh.value pool := by
  obtain ⟨pool, pair, n, hreaches, hdrawn, hcount, hpair, hvalid⟩ :=
    rotated_beside_logout (distinct_four.mono (Nat.le_succ 3))
  have hnew : (issued .standard .refresh).supply.NewTo (manager .standard).primitives
      (issued .standard .refresh).store (issued .standard .refresh).drawn pool.backend.drawn :=
    hdrawn ▸ newTo_issued fresh_three
  have hholder : ∀ i value r, departures .standard i = .refresh value →
      (issued .standard .refresh).store.find? (OpaqueValue.id (manager .standard).primitives value) =
        some r → r.claims.subject? = some ⟨"alice"⟩ := by
    intro i value r hvalue hr
    cases i with
    | true => cases hvalue
    | false =>
      obtain rfl := TokenRequest.refresh.inj hvalue
      obtain rfl := Option.some.inj ((find?_token .standard .refresh).symm.trans hr)
      rfl
  obtain ⟨hbefore, hissued, hdraws⟩ := survivors_of_logout rfl (logsOut_departures .standard) hholder
    .refl rfl hreaches hnew hcount
  refine ⟨pool, pair, n, hcount, fun v => ?_, ?_⟩
  · exact hbefore _ _ v (find?_token .standard .refresh) rfl rfl
  · exact hissued false _ _ _ _ rfl (hdraws false _ pair rfl hpair).2 hpair
      (hvalid pair.refresh (by simp))

end AccessControl
