import AccessControl.Proofs.Token.Conduct
import AccessControl.Proofs.Token.Disturbance

/-!
# Rotations that fail

A rotation asks its collaborators about ten questions, and any of them may be disturbed. Wherever it
stops with an error, it takes back what it has done: it has deleted the records that it kept, under
the subject that the store asks for, and reported nothing (`refresh_withdrawn`). `Backend.Spares` is
what is followed through the call: the records that are there too much.
-/

namespace AccessControl

namespace TokenStore

variable {c : Claims} {st st' : TokenStore} {ids : List TokenId}

/-- What `st'` has more than `st` is records of the subject of the claims, under some identifiers that
`st` has no records for. -/
structure Spares (c : Claims) (st : TokenStore) (ids : List TokenId) (st' : TokenStore) : Prop where
  fresh : ∀ id ∈ ids, st.find? id = none
  found : ∀ id, st'.find? id = st.find? id ∨
    id ∈ ids ∧ ∃ r, st'.find? id = some r ∧ c.subject? = some r.subject

namespace Spares

theorem refl (c : Claims) (st : TokenStore) : st.Spares c [] st :=
  ⟨fun _ hid => (nomatch hid), fun _ => .inl rfl⟩

theorem perm {ids' : List TokenId} (h : st.Spares c ids st') (hp : ids.Perm ids') :
    st.Spares c ids' st' where
  fresh id hid := h.fresh id (hp.mem_iff.2 hid)
  found id := (h.found id).imp_right (And.imp_left hp.mem_iff.1)

theorem eq (h : st.Spares c [] st') : st' = st := by
  apply TokenStore.ext
  intro id
  rcases h.found id with he | ⟨hid, -⟩
  · exact he
  · cases hid

/-- Without a subject nothing is kept. -/
theorem of_subject_none (h : st.Spares c ids st') (hnone : c.subject? = none) :
    st.Spares c [] st' := by
  constructor
  · intro id hid
    cases hid
  · intro id
    rcases h.found id with he | ⟨-, r, -, hr⟩
    · exact .inl he
    · rw [hnone] at hr
      cases hr

theorem insert (h : st.Spares c ids st') {r : TokenRecord} (hr : c.subject? = some r.subject)
    (hnew : st.find? r.id = none) : st.Spares c (r.id :: ids) (st'.insert r) := by
  constructor
  · intro id hid
    rcases List.mem_cons.1 hid with rfl | hid
    · exact hnew
    · exact h.fresh id hid
  · intro id
    rw [find?_insert]
    by_cases hid : id = r.id
    · exact .inr ⟨hid ▸ List.mem_cons_self, r, if_pos hid, hr⟩
    · rw [if_neg hid]
      rcases h.found id with he | ⟨hmem, hspare⟩
      · exact .inl he
      · exact .inr ⟨List.mem_cons_of_mem _ hmem, hspare⟩

/-- The store lets the owner delete a spare record. -/
theorem delete {subject : SubjectId} {id : TokenId} (h : st.Spares c (id :: ids) st')
    (hsubject : c.subject? = some subject) : st.Spares c ids (st'.delete subject id).2 := by
  refine ⟨fun id' hid' => h.fresh id' (List.mem_cons_of_mem _ hid'), fun id' => ?_⟩
  rw [find?_delete]
  by_cases hid : id' = id
  · subst hid
    have hnew := h.fresh id' List.mem_cons_self
    refine .inl ?_
    rw [if_pos rfl, hnew]
    rcases h.found id' with he | ⟨-, r, hr, hof⟩
    · rw [he, hnew]
      rfl
    · have hown : r.subject = subject := Option.some.inj (hof.symm.trans hsubject)
      simp [hr, hown]
  · rw [if_neg hid]
    rcases h.found id' with he | ⟨hmem, hspare⟩
    · exact .inl he
    · exact .inr ⟨(List.mem_cons.1 hmem).resolve_left hid, hspare⟩

end Spares

end TokenStore

/-- What may come back for a question while its call is disturbed at will: what comes over some lines,
or, for a report, that the token is on the list already. Only deletions go through. -/
inductive Backend.Returns (b : Backend) : (q : Ask) → Bool → q.Answer → Backend → Prop
  | replied {q : Ask} {bound : Bool} {x : q.Answer} {b' : Backend} (h : b.Replies q bound x b')
    (hq : ∀ subject id, q ≠ .deleteRecord subject id) : Returns b q bound x b'
  | deleted (subject : SubjectId) (id : TokenId) (bound : Bool) :
    Returns b (.deleteRecord subject id) bound (b.answer (.deleteRecord subject id)).1
      (b.answer (.deleteRecord subject id)).2
  | present (id : TokenId) (t : Instant) (bound : Bool) :
    Returns b (.addRevocation id t) bound (.ok false) b

/-- The procedure can return `a` and leave `b'` behind when its calls are disturbed. The clock is set
anew before each question. -/
inductive Procedure.Returns {α : Type} : Procedure α → Backend → α → Backend → Prop
  | done (a : α) (b : Backend) : Returns (.done a) b a b
  | ask {q : Ask} {bound : Bool} {next : q.Answer → Procedure α} {b b₁ b' : Backend} {x : q.Answer}
    {a : α} (t : Instant) (hx : { b with clock := t }.Returns q bound x b₁)
    (hrest : Returns (next x) b₁ a b') : Returns (.ask q bound next) b a b'

namespace Backend

variable {b b' b'' : Backend}

/-- No record and no revoked token more or less. -/
structure Same (b b' : Backend) : Prop where
  supply : b'.supply = b.supply
  drawn : b.drawn ≤ b'.drawn
  store : b'.store = b.store
  listed : ∀ id, b'.revocations.contains id = b.revocations.contains id

theorem Same.refl (b : Backend) : Same b b := ⟨rfl, Nat.le_refl _, rfl, fun _ => rfl⟩

theorem same_clock (b : Backend) (t : Instant) : Same b { b with clock := t } :=
  ⟨rfl, Nat.le_refl _, rfl, fun _ => rfl⟩

theorem Same.trans (h : Same b b') (h' : Same b' b'') : Same b b'' where
  supply := h'.supply.trans h.supply
  drawn := Nat.le_trans h.drawn h'.drawn
  store := h'.store.trans h.store
  listed id := (h'.listed id).trans (h.listed id)

/-- What `b'` has more than `b` is records of the subject of the claims, under some identifiers. -/
structure Spares (c : Claims) (b : Backend) (ids : List TokenId) (b' : Backend) : Prop where
  supply : b'.supply = b.supply
  drawn : b.drawn ≤ b'.drawn
  listed : ∀ id, b'.revocations.contains id = b.revocations.contains id
  store : b.store.Spares c ids b'.store

variable {c : Claims} {ids : List TokenId}

theorem Same.spares (h : Same b b') (c : Claims) : b.Spares c [] b' :=
  ⟨h.supply, h.drawn, h.listed, h.store.symm ▸ .refl c b.store⟩

theorem Spares.same (h : b.Spares c ids b') (hs : Same b' b'') : b.Spares c ids b'' where
  supply := hs.supply.trans h.supply
  drawn := Nat.le_trans h.drawn hs.drawn
  listed id := (hs.listed id).trans (h.listed id)
  store := hs.store.symm ▸ h.store

theorem Spares.insert (h : b.Spares c ids b') {r : TokenRecord} (hr : c.subject? = some r.subject)
    (hnew : b.store.find? r.id = none) :
    b.Spares c (r.id :: ids) { b' with store := b'.store.insert r } :=
  { h with store := h.store.insert hr hnew }

theorem Spares.delete {subject : SubjectId} {id : TokenId} (h : b.Spares c (id :: ids) b')
    (hsubject : c.subject? = some subject) :
    b.Spares c ids { b' with store := (b'.store.delete subject id).2 } :=
  { h with store := h.store.delete hsubject }

/-! ### Single questions -/

namespace Returns

variable {q : Ask} {bound : Bool} {x : q.Answer}

/-- A question whose answer changes nothing changes nothing. -/
theorem eq_of_answer (h : b.Returns q bound x b') (hq : (b.answer q).2 = b) : b' = b := by
  cases h with
  | replied h =>
    rcases h.cases with ⟨-, rfl⟩ | ⟨rfl, -⟩
    · exact hq
    · rfl
  | deleted => exact hq
  | present => rfl

theorem drawn_le (h : b.Returns q bound x b') : b.drawn ≤ b'.drawn := by
  cases h with
  | replied h => exact h.drawn_le
  | deleted => exact b.drawn_le_answer _
  | present => exact Nat.le_refl _

theorem keyed {id : TokenId} {x : (Ask.findRecord id).Answer}
    (h : b.Returns (.findRecord id) bound x b') : ∀ r, x = .ok (some r) → r.id = id := by
  cases h with
  | replied h =>
    obtain ⟨ended, ls, ls', h⟩ := h
    have hx : (respond ended (.findRecord id) bound (b, ls)).1 = some x := by rw [h]
    exact respond_keyed hx

theorem freshValue {x : String} (h : b.Returns .freshValue bound x b') :
    x = b.supply.value b.drawn ∧ Same b b' ∧ b.drawn < b'.drawn := by
  cases h with
  | replied h =>
    rcases h.cases with ⟨rfl, rfl⟩ | ⟨-, ⟨f, hf⟩ | hlie⟩
    · exact ⟨rfl, ⟨rfl, Nat.le_succ _, rfl, fun _ => rfl⟩, Nat.lt_succ_self _⟩
    · cases hf
    · cases hlie

theorem insertRecord {r : TokenRecord} {x : Except CallFault Unit}
    (h : b.Returns (.insertRecord r) bound x b') :
    (∃ f, x = .error f) ∧ b' = b ∨ x = .ok () ∧ b' = { b with store := b.store.insert r } := by
  cases h with
  | replied h =>
    rcases h.cases with h | ⟨hb, ⟨f, hf⟩ | hlie⟩
    · exact .inr h
    · exact .inl ⟨⟨f, (Option.some.inj hf).symm⟩, hb⟩
    · cases hlie

theorem deleteRecord {subject : SubjectId} {id : TokenId} {x : Except CallFault Bool}
    (h : b.Returns (.deleteRecord subject id) bound x b') :
    b' = { b with store := (b.store.delete subject id).2 } := by
  cases h with
  | replied _ hq => exact absurd rfl (hq subject id)
  | deleted => rfl

/-- A report that is not the first one leaves the list as it was, up to its expiries. -/
theorem addRevocation {id : TokenId} {t : Instant} {x : Except CallFault Bool}
    (h : b.Returns (.addRevocation id t) bound x b') : x = .ok true ∨ Same b b' := by
  cases h with
  | replied h =>
    rcases h.cases with ⟨rfl, rfl⟩ | ⟨rfl, -⟩
    · cases hlisted : b.revocations.contains id with
      | false =>
        refine .inl ?_
        show Except.ok (b.revocations.add id t).1 = _
        rw [RevocationList.add_fst, hlisted]
        rfl
      | true =>
        refine .inr { Same.refl b with listed := fun id' => ?_ }
        show (b.revocations.add id t).2.contains id' = _
        rw [RevocationList.contains_add]
        by_cases hid : id' = id
        · simp [hid, hlisted]
        · simp [hid]
    · exact .inr (.refl b')
  | present => exact .inr (.refl b)

end Returns

end Backend

/-! ### Procedures -/

namespace Procedure

open Backend

variable {α β : Type} {b b' : Backend} {a : α}

theorem Returns.bind_inv {p : Procedure α} {f : α → Procedure β} {a : β}
    (h : (p.bind f).Returns b a b') : ∃ a' b₁, p.Returns b a' b₁ ∧ (f a').Returns b₁ a b' := by
  induction p generalizing b with
  | done a' => exact ⟨a', b, .done a' b, h⟩
  | abort => cases h
  | ask q bound next ih =>
    cases h with
    | @ask _ _ _ _ _ _ x _ t hx hrest =>
      obtain ⟨a', b₁, hnext, hf⟩ := ih x hrest
      exact ⟨a', b₁, .ask t hx hnext, hf⟩

theorem Returns.call_inv {q : Ask} {bound : Bool} {x : q.Answer}
    (h : (Procedure.ask q bound .done).Returns b x b') :
    ∃ b₁, Same b b₁ ∧ b₁.Returns q bound x b' ∧ b₁.drawn = b.drawn := by
  cases h with
  | ask t hx hrest =>
    cases hrest with
    | done => exact ⟨_, same_clock b t, hx, rfl⟩

theorem Returns.drawn_le {p : Procedure α} (h : p.Returns b a b') : b.drawn ≤ b'.drawn := by
  induction h with
  | done => exact Nat.le_refl _
  | ask t hx _ ih => exact Nat.le_trans hx.drawn_le ih

/-- A procedure that only makes inquiries changes nothing. -/
theorem Follows.same {p : Procedure α} {id : TokenId} {ends : List Exchange → α → Prop}
    {past : List Exchange} (hp : p.Follows (TokenManager.inquiry id) ends past)
    (h : p.Returns b a b') : Same b b' := by
  induction h generalizing past with
  | done => exact .refl _
  | @ask q bound next b b₁ b' x a t hx hrest ih =>
    have hanswer := (TokenManager.answer_inquiry (.refl { b with clock := t } id) rfl hp.1).1
    obtain rfl := hx.eq_of_answer (congrArg Prod.snd hanswer)
    have hexpect : (TokenManager.inquiry id).expect q x := by
      cases q with
      | findRecord id' => exact hx.keyed
      | _ => trivial
    exact (same_clock b t).trans (ih (hp.2 x hexpect))

end Procedure

/-! ### Runs over lines -/

/-- Calls to this collaborator are not disturbed. -/
def Lines.Clear (ls : Lines) (t : Target) : Prop := ∀ l, ls t = some l → l.plan = none

theorem Lines.Clear.call {ls : Lines} {t : Target} (h : ls.Clear t) : (ls.call t).1 = none := by
  unfold Lines.call
  cases hl : ls t with
  | none => rfl
  | some l => simp [Line.call, h l hl]

theorem Lines.Clear.after {ls : Lines} {t : Target} (h : ls.Clear t) (t' : Target) :
    (ls.call t').2.Clear t := by
  unfold Lines.call
  cases hl : ls t' with
  | none => exact h
  | some l =>
    intro l' hl'
    simp only [Lines.set] at hl'
    split at hl'
    next he =>
      obtain rfl := Option.some.inj hl'
      simp [Line.call, h l (he ▸ hl)]
    · exact h l' hl'

/-- Over lines that do not disturb deletions a question is answered as it may be. -/
theorem Backend.returns_of_respond {b b' : Backend} {ls ls' : Lines} {ended : Option Cancelled}
    {q : Ask} {bound : Bool} {x : q.Answer} (hls : ls.Clear .storeDelete)
    (h : respond ended q bound (b, ls) = (some x, (b', ls'))) : b.Returns q bound x b' := by
  by_cases hq : ∃ subject id, q = .deleteRecord subject id
  · obtain ⟨subject, id, rfl⟩ := hq
    simp only [respond, Ask.target?, hls.call] at h
    cases h
    exact .deleted subject id bound
  · exact .replied ⟨ended, ls, ls', h⟩ fun subject id he => hq ⟨subject, id, he⟩

theorem Procedure.returns_of_run {α : Type} {p : Procedure α} {b b' : Backend} {ls ls' : Lines}
    {ended : Option Cancelled} {a : α} (hls : ls.Clear .storeDelete)
    (h : p.run (Backend.respond ended) (b, ls) = (.done a, (b', ls'))) : p.Returns b a b' := by
  induction p generalizing b ls with
  | done a' =>
    cases h
    exact .done a b'
  | abort => cases h
  | ask q bound next ih =>
    rw [Procedure.run] at h
    split at h
    · next x s hx =>
      obtain ⟨b₁, ls₁⟩ := s
      have hlines := (Backend.respond_effect ended q bound b ls).2.1
      rw [hx] at hlines
      have hls₁ : ls₁.Clear .storeDelete := by
        rw [show ls₁ = _ from hlines]
        cases q.target? with
        | none => exact hls
        | some t => exact hls.after t
      exact .ask b.clock (Backend.returns_of_respond hls hx) (ih x hls₁ h)
    · cases h

namespace Operation

open Backend Procedure

variable {α β : Type} {b b' : Backend}

/-- The operation can end in `r` and leave `b'` behind when its calls are disturbed. -/
def Returns (x : Operation α) (b : Backend) (r : Except TokenError α) (b' : Backend) : Prop :=
  x.run.Returns b r b'

theorem Returns.bind_inv {x : Operation α} {f : α → Operation β} {r : Except TokenError β}
    (h : Returns (x >>= f) b r b') :
    (∃ e, Returns x b (.error e) b' ∧ r = .error e) ∨
      ∃ a b₁, Returns x b (.ok a) b₁ ∧ Returns (f a) b₁ r b' := by
  obtain ⟨y, b₁, hx, hf⟩ := Procedure.Returns.bind_inv h
  cases y with
  | ok a => exact .inr ⟨a, b₁, hx, hf⟩
  | error e =>
    cases hf with
    | done => exact .inl ⟨e, hx, rfl⟩

theorem Returns.tryCatch_inv {x : Operation α} {f : TokenError → Operation α}
    {r : Except TokenError α} (h : Returns (tryCatch x f) b r b') :
    (∃ a, Returns x b (.ok a) b' ∧ r = .ok a) ∨
      ∃ e b₁, Returns x b (.error e) b₁ ∧ Returns (f e) b₁ r b' := by
  obtain ⟨y, b₁, hx, hf⟩ := Procedure.Returns.bind_inv h
  cases y with
  | ok a =>
    cases hf with
    | done => exact .inl ⟨a, hx, rfl⟩
  | error e => exact .inr ⟨e, b₁, hx, hf⟩

theorem Returns.lift_inv {p : Procedure α} {r : Except TokenError α}
    (h : Returns (liftM p) b r b') : ∃ a, p.Returns b a b' ∧ r = .ok a := by
  obtain ⟨a, b₁, hp, hdone⟩ := Procedure.Returns.bind_inv h
  cases hdone with
  | done => exact ⟨a, hp, rfl⟩

theorem Returns.checked_inv {fault : CallFault → TokenError} {p : Procedure (Except CallFault α)}
    {r : Except TokenError α} (h : Returns (checked fault p) b r b') :
    ∃ y, p.Returns b y b' ∧ r = y.mapError fault := by
  obtain ⟨y, b₁, hp, hdone⟩ := Procedure.Returns.bind_inv h
  cases hdone with
  | done => exact ⟨y, hp, rfl⟩

theorem Returns.pure_inv {a : α} {r : Except TokenError α}
    (h : Returns (pure a) b r b') : r = .ok a ∧ b' = b := by
  cases h with
  | done => exact ⟨rfl, rfl⟩

theorem Returns.throw_inv {e : TokenError} {r : Except TokenError α}
    (h : Returns (throw e) b r b') : r = .error e ∧ b' = b := by
  cases h with
  | done => exact ⟨rfl, rfl⟩

theorem Returns.representable_inv {t : Option Instant} {r : Except TokenError Instant}
    (h : Returns (representable t) b r b') : ∃ e, r = .ok e ∧ b' = b := by
  cases t with
  | none => cases h
  | some e =>
    cases h with
    | done => exact ⟨e, rfl, rfl⟩

end Operation

namespace TokenManager

open Backend Operation Procedure

variable {m : TokenManager} {c : Claims} {base b b' : Backend} {ids : List TokenId}

/-- The values that are drawn from `b` on, up to the `n`-th, name no record that is there. -/
def Untaken (m : TokenManager) (b : Backend) (n : Nat) : Prop :=
  ∀ i, b.drawn ≤ i → i < n → b.store.find? (OpaqueValue.id m.primitives (b.supply.value i)) = none

theorem Untaken.mono {n n' : Nat} (h : m.Untaken b n') (hle : n ≤ n') : m.Untaken b n :=
  fun i hi hn => h i hi (Nat.lt_of_lt_of_le hn hle)

theorem returns_verify (hstored : m.backing = .stored) {value : String}
    {r : Except TokenError (Except VerificationFailure Verified)}
    (h : Operation.Returns (m.verify value) b r b') : Same b b' := by
  have hid : ∀ id, m.idOf? value = some id → id = OpaqueValue.id m.primitives value := by
    intro id hid
    rw [idOf?, hstored] at hid
    exact (Option.some.inj hid).symm
  exact (consults_verify (consults_inquiry hid) []).same h

/-! ### Issuing -/

theorem returns_mint (hstored : m.backing = .stored) {kind : TokenKind} {tenant : TenantId}
    {app : AppId} {subject : SubjectId} {issuedAt expiresAt : Instant}
    {r : Except TokenError (String × TokenId)} (hsubject : c.subject? = some subject)
    (hb : base.Spares c ids b) (hnew : m.Untaken base b'.drawn)
    (h : Operation.Returns (m.mint c kind tenant app subject issuedAt expiresAt) b r b') :
    (∃ e, r = .error e ∧ base.Spares c ids b') ∨
      ∃ value id, r = .ok (value, id) ∧ base.Spares c (id :: ids) b' := by
  unfold mint at h
  rw [hstored] at h
  rcases h.bind_inv with ⟨e, hdraw, -⟩ | ⟨value, b₁, hdraw, hkeep⟩
  · obtain ⟨_, -, he⟩ := hdraw.lift_inv
    cases he
  obtain ⟨_, hdraw, he⟩ := hdraw.lift_inv
  obtain rfl := Except.ok.inj he
  obtain ⟨b₀, hsame, hdraw, hnext⟩ := hdraw.call_inv
  obtain ⟨hvalue, hdrawn, hlt⟩ := hdraw.freshValue
  -- The drawn value names no record, and it stays drawn until the call returns.
  have hfresh : base.store.find? (OpaqueValue.id m.primitives value) = none := by
    have hle : b₁.drawn ≤ b'.drawn := Procedure.Returns.drawn_le hkeep
    rw [hvalue, hsame.supply, hb.supply, hnext]
    exact hnew b.drawn hb.drawn (by omega)
  have hb := hb.same (hsame.trans hdrawn)
  have hinserts : ∀ {r : TokenRecord} {x b₂}, c.subject? = some r.subject →
      base.store.find? r.id = none → (boundCall (.insertRecord r)).Returns b₁ x b₂ →
      (∃ f, x = .error f) ∧ base.Spares c ids b₂ ∨ x = .ok () ∧ base.Spares c (r.id :: ids) b₂ := by
    intro r x b₂ hr hid hinsert
    obtain ⟨b₀, hsame, hinsert, -⟩ := hinsert.call_inv
    rcases hinsert.insertRecord with ⟨hfailed, rfl⟩ | ⟨hok, rfl⟩
    · exact .inl ⟨hfailed, hb.same hsame⟩
    · exact .inr ⟨hok, (hb.same hsame).insert hr hid⟩
  rcases Operation.Returns.bind_inv hkeep with ⟨e, hinsert, rfl⟩ | ⟨_, b₂, hinsert, hdone⟩
  · obtain ⟨x, hinsert, he⟩ := hinsert.checked_inv
    rcases hinserts hsubject hfresh hinsert with ⟨-, hb⟩ | ⟨rfl, -⟩
    · exact .inl ⟨e, rfl, hb⟩
    · cases he
  · obtain ⟨rfl, rfl⟩ := hdone.pure_inv
    obtain ⟨x, hinsert, he⟩ := hinsert.checked_inv
    rcases hinserts hsubject hfresh hinsert with ⟨⟨f, rfl⟩, -⟩ | ⟨-, hb⟩
    · cases he
    · exact .inr ⟨_, _, rfl, hb⟩

/-- A token that is issued leaves its record, and one that is not leaves nothing. -/
theorem returns_issue (hstored : m.backing = .stored) {kind : TokenKind} {r : Except TokenError Token}
    (hb : base.Spares c ids b) (hnew : m.Untaken base b'.drawn)
    (h : Operation.Returns (m.issue c kind) b r b') :
    (∃ e, r = .error e ∧ base.Spares c ids b') ∨
      ∃ t, r = .ok t ∧ base.Spares c (t.id :: ids) b' := by
  unfold issue at h
  rcases h.bind_inv with ⟨e, hnow, -⟩ | ⟨now, b₁, hnow, hexpires⟩
  · obtain ⟨_, -, he⟩ := hnow.lift_inv
    cases he
  obtain ⟨_, hnow, -⟩ := hnow.lift_inv
  obtain ⟨b₀, hsame, hnow, -⟩ := hnow.call_inv
  obtain rfl := hnow.eq_of_answer rfl
  have hb := hb.same hsame
  rcases hexpires.bind_inv with ⟨e, hexpiry, -⟩ | ⟨expiresAt, b₂, hexpiry, hissue⟩
  · obtain ⟨_, he, -⟩ := hexpiry.representable_inv
    cases he
  obtain ⟨_, -, rfl⟩ := hexpiry.representable_inv
  split at hissue
  · next tenant app subject _ _ hsubject =>
    rcases hissue.bind_inv with ⟨e, hmint, rfl⟩ | ⟨minted, b₃, hmint, hdone⟩
    · rcases returns_mint hstored hsubject hb hnew hmint with ⟨_, -, hb⟩ | ⟨_, _, he, -⟩
      · exact .inl ⟨e, rfl, hb⟩
      · cases he
    · obtain ⟨rfl, rfl⟩ := hdone.pure_inv
      rcases returns_mint hstored hsubject hb hnew hmint with ⟨_, he, -⟩ | ⟨value, id, he, hb⟩
      · cases he
      · obtain rfl := Except.ok.inj he
        exact .inr ⟨_, rfl, hb⟩
  · obtain ⟨rfl, rfl⟩ := hissue.throw_inv
    exact .inl ⟨_, rfl, hb⟩

/-! ### Giving up -/

/-- The clean-up deletes all that was kept. -/
theorem returns_discard (hstored : m.backing = .stored) {tokens : List Token}
    (hb : base.Spares c (tokens.map Token.id) b) (h : (m.discard c tokens).Returns b () b') :
    base.Spares c [] b' := by
  unfold discard at h
  rw [hstored] at h
  cases hsubject : c.subject? with
  | none =>
    rw [hsubject] at h
    cases h with
    | done => exact { hb with store := hb.store.of_subject_none hsubject }
  | some subject =>
    simp only [hsubject] at h
    induction tokens generalizing b with
    | nil =>
      cases h with
      | done => exact hb
    | cons t tokens ih =>
      cases h with
      | ask time hdelete hrest =>
        refine ih ?_ hrest
        rw [hdelete.deleteRecord]
        exact (hb.same (same_clock b time)).delete hsubject

/-- A report is the first one or leaves the list as it was. -/
theorem returns_retire {d : TokenDetails} {retries : Nat} {x : Except CallFault Bool}
    (h : (retire d retries).Returns b x b') : x = .ok true ∨ Same b b' := by
  induction retries generalizing b with
  | zero =>
    obtain ⟨b₀, hsame, hadd, -⟩ := h.call_inv
    exact hadd.addRevocation.imp_right hsame.trans
  | succ n ih =>
    obtain ⟨y, b₁, hadd, h⟩ := Procedure.Returns.bind_inv h
    obtain ⟨b₀, hsame, hadd, -⟩ := hadd.call_inv
    cases y with
    | ok new =>
      cases h with
      | done => exact hadd.addRevocation.imp_right hsame.trans
    | error f =>
      rcases hadd.addRevocation with he | hreported
      · cases he
      · exact (ih h).imp_right (hsame.trans hreported).trans

theorem returns_withdraw (hstored : m.backing = .stored) {α : Type} (tokens : List Token)
    {e : TokenError} {r : Except TokenError α} (hb : base.Spares c (tokens.map Token.id) b)
    (h : Operation.Returns (do m.discard c tokens; throw e) b r b') :
    r = .error e ∧ base.Spares c [] b' := by
  rcases h.bind_inv with ⟨_, hdiscard, -⟩ | ⟨_, b₁, hdiscard, hthrow⟩
  · obtain ⟨_, -, he⟩ := hdiscard.lift_inv
    cases he
  · obtain ⟨_, hdiscard, -⟩ := hdiscard.lift_inv
    obtain ⟨hr, rfl⟩ := hthrow.throw_inv
    exact ⟨hr, returns_discard hstored hb hdiscard⟩

/-- If the second token cannot be issued, the first one is given up. -/
theorem returns_second (hstored : m.backing = .stored) {access : Token} {r : Except TokenError Token}
    (hb : base.Spares c [access.id] b) (hnew : m.Untaken base b'.drawn)
    (h : Operation.Returns (tryCatch (m.issue c .refresh) fun e => do
      m.discard c [access]
      throw e) b r b') :
    (∃ e, r = .error e ∧ base.Spares c [] b') ∨
      ∃ t, r = .ok t ∧ base.Spares c [access.id, t.id] b' := by
  rcases h.tryCatch_inv with ⟨t, hissue, rfl⟩ | ⟨e, b₁, hissue, hdiscard⟩
  · rcases returns_issue hstored hb hnew hissue with ⟨_, he, -⟩ | ⟨_, he, hb⟩
    · cases he
    · obtain rfl := Except.ok.inj he
      exact .inr ⟨t, rfl, { hb with store := hb.store.perm (List.Perm.swap ..) }⟩
  · have hnew₁ := hnew.mono (Procedure.Returns.drawn_le hdiscard)
    rcases returns_issue hstored hb hnew₁ hissue with ⟨_, -, hb⟩ | ⟨_, he, -⟩
    · exact .inl ⟨e, returns_withdraw hstored [access] hb hdiscard⟩
    · cases he

/-- An exchange that fails leaves nothing behind. -/
theorem returns_exchange (hstored : m.backing = .stored) {v : Verified} {e : TokenError}
    (hb : base.Spares v.claims [] b) (hnew : m.Untaken base b'.drawn)
    (h : Operation.Returns (m.exchangeVerified v) b (.error e) b') :
    base.Spares v.claims [] b' := by
  unfold exchangeVerified at h
  split at h
  · rcases h.bind_inv with ⟨_, haccess, -⟩ | ⟨access, b₁, haccess, hsecond⟩
    · rcases returns_issue hstored hb hnew haccess with ⟨_, -, hb⟩ | ⟨_, he, -⟩
      · exact hb
      · cases he
    have hnew₁ := hnew.mono (Procedure.Returns.drawn_le hsecond)
    rcases returns_issue hstored hb hnew₁ haccess with ⟨_, he, -⟩ | ⟨_, he, hb⟩
    · cases he
    obtain rfl := Except.ok.inj he
    rcases hsecond.bind_inv with ⟨_, hrefresh, -⟩ | ⟨refresh, b₂, hrefresh, hreport⟩
    · rcases returns_second hstored hb hnew hrefresh with ⟨_, -, hb⟩ | ⟨_, he, -⟩
      · exact hb
      · cases he
    have hnew₂ := hnew.mono (Procedure.Returns.drawn_le hreport)
    rcases returns_second hstored hb hnew₂ hrefresh with ⟨_, he, -⟩ | ⟨_, he, hb⟩
    · cases he
    obtain rfl := Except.ok.inj he
    rcases hreport.bind_inv with ⟨_, hretire, -⟩ | ⟨_, b₃, hretire, hend⟩
    · obtain ⟨_, -, he⟩ := hretire.lift_inv
      cases he
    obtain ⟨reported, hretire, he⟩ := hretire.lift_inv
    obtain rfl := Except.ok.inj he
    split at hend
    · -- Who is the first to report the token hands the pair out.
      rcases hend.bind_inv with ⟨_, hmark, -⟩ | ⟨_, b₄, -, hdone⟩
      · obtain ⟨_, -, he⟩ := hmark.lift_inv
        cases he
      · obtain ⟨he, -⟩ := hdone.pure_inv
        cases he
    · rcases returns_retire hretire with he | hsame
      · cases he
      · exact (returns_withdraw hstored [access, refresh] (hb.same hsame) hend).2
    · obtain ⟨he, -⟩ := hend.pure_inv
      cases he
  · obtain ⟨-, rfl⟩ := h.throw_inv
    exact hb

/-- A rotation of an opaque token that fails, whichever of its calls were disturbed, leaves every
record as it was, no other record, and no other token revoked, provided that deletions go through and
new values name no record that is there. -/
theorem refresh_withdrawn (hstored : m.backing = .stored) {value : String} {e : TokenError}
    (hnew : m.Untaken b b'.drawn) (h : Operation.Returns (m.refresh value) b (.error e) b') :
    b'.store = b.store ∧ ∀ id, b'.revocations.contains id = b.revocations.contains id := by
  rw [refresh_eq] at h
  rcases h.bind_inv with ⟨_, hverify, -⟩ | ⟨verdict, b₁, hverify, hrest⟩
  · have hsame := returns_verify hstored hverify
    exact ⟨hsame.store, hsame.listed⟩
  have hsame := returns_verify hstored hverify
  cases verdict with
  | error f =>
    obtain ⟨-, rfl⟩ := Operation.Returns.throw_inv hrest
    exact ⟨hsame.store, hsame.listed⟩
  | ok v =>
    have hspares := returns_exchange hstored (hsame.spares v.claims) hnew hrest
    exact ⟨hspares.store.eq, hspares.listed⟩

end TokenManager

namespace Sample

/-- The presented token is on the list already, and the lookup denies it. -/
def denied : Backend × Lines :=
  ({ issued .standard .refresh with
      revocations := (RevocationList.empty.add (token .standard .refresh).id ⟨1700604800, 0⟩).2 },
    (Lines.of [.revocationLookup]).plan .revocationLookup (some ⟨.lie, 0, none⟩))

theorem untaken_issued : (manager .standard).Untaken (issued .standard .refresh) 4 := by
  intro i hi hlt
  have hother := fun he => Nat.ne_of_gt hi (fresh_four.distinct i hlt 0 (by decide) he)
  show (empty.store.insert ((token .standard .refresh).record claims)).find? _ = none
  rw [TokenStore.find?_insert]
  exact if_neg hother

end Sample

open Sample in
theorem TokenManager.withdrawn_after_late_report :
    ∃ b', Operation.Returns ((manager .standard).refresh (token .standard .refresh).value) denied.1
        (.error (.rejected .revoked)) b' ∧
      b'.store = denied.1.store ∧
      ∀ id, b'.revocations.contains id = denied.1.revocations.contains id := by
  obtain ⟨run, hrun⟩ : ∃ run, run =
    ((manager .standard).refresh (token .standard .refresh).value).run.run (Backend.respond none)
      denied := ⟨_, rfl⟩
  obtain ⟨hrejected, hdrawn⟩ : run.1.map (fun r => match r with
        | .error e => some e
        | .ok _ => none) = .done (some (.rejected .revoked)) ∧ run.2.1.drawn = 3 := by
    rw [hrun]
    decide +kernel
  obtain ⟨o, b', ls'⟩ := run
  obtain ⟨r, rfl, hr⟩ := Outcome.map_eq_done.1 hrejected
  cases r with
  | ok pair => cases hr
  | error e =>
    obtain rfl := Option.some.inj hr
    have hclear : denied.2.Clear .storeDelete := nofun
    have hreturns := Procedure.returns_of_run hclear hrun.symm
    have hnew : (manager .standard).Untaken denied.1 b'.drawn :=
      untaken_issued.mono (Nat.le_of_lt (Nat.lt_of_le_of_lt (Nat.le_of_eq hdrawn) (by decide)))
    exact ⟨b', hreturns, refresh_withdrawn rfl hnew hreturns⟩

end AccessControl
