import AccessControl.Proofs.Token.Conduct
import AccessControl.Proofs.Token.Disturbance
import AccessControl.Proofs.Token.FailFast
import AccessControl.Proofs.Token.Rotation

/-!
# Calls about other tokens

Any number of calls for any requests run side by side, over disturbed lines. `Pool.Minting` holds at
every moment: what is in the store, or was listed, was kept by a call for the same subject of the
same tenant, and no two calls have drawn the same identifier. So a call that is about other tokens
never touches a token that was handed out, however far it gets and whatever it returns, and the token
verifies as before at every time (`Pool.others_stand`).
-/

namespace AccessControl

/-! ### What single questions leave -/

/-- The question may change what is known of the identifier. -/
def Ask.Touches (id : TokenId) : Ask → Prop
  | insertRecord r => r.id = id
  | deleteRecord _ id' | revokeRecord _ id' _ | addRevocation id' _ => id' = id
  | cleanupRecords _ | cleanupRevocations _ => True
  | now | freshId | freshValue | findRecord _ | listRecords _ _ | findRevocation _ => False

namespace Backend

variable {b b' : Backend} {q : Ask} {bound : Bool} {x : q.Answer} {id : TokenId}

theorem agrees_answer (h : ¬q.Touches id) : b.Agrees (b.answer q).2 id := by
  cases q with
  | now | freshId | freshValue | findRecord | listRecords | findRevocation => exact ⟨rfl, rfl⟩
  | insertRecord r =>
    refine ⟨rfl, ?_⟩
    show (b.store.insert r).find? id = _
    rw [TokenStore.find?_insert, if_neg fun he => h he.symm]
  | deleteRecord s id' =>
    refine ⟨rfl, ?_⟩
    show (b.store.delete s id').2.find? id = _
    rw [TokenStore.find?_delete, if_neg fun he => h he.symm]
  | revokeRecord s id' t => exact TokenManager.agrees_revoke b s (fun he => h he.symm) t
  | addRevocation id' t => exact TokenManager.agrees_add b (fun he => h he.symm) t
  | cleanupRecords t => exact absurd trivial h
  | cleanupRevocations t => exact absurd trivial h

theorem Replies.agrees (hx : b.Replies q bound x b') (h : ¬q.Touches id) : b.Agrees b' id := by
  rcases hx.cases with ⟨-, rfl⟩ | ⟨rfl, -⟩
  · exact agrees_answer h
  · exact .refl b' id

/-- A record that is found after a question was put in its place by the question, or was there
before, for the same subject of the same tenant. -/
theorem record_of_answer {a : q.Answer} {r : TokenRecord}
    (h : (b.answer q).2.store.find? id = some r) :
    (⟨q, a⟩ : Exchange).Records id r.tenant r.subject ∨
      ∃ r', b.store.find? id = some r' ∧ r'.tenant = r.tenant ∧ r'.subject = r.subject := by
  rcases found_of_answer h with ⟨rfl, hid⟩ | ⟨r', hr', hbecomes⟩
  · exact .inl ⟨hid, rfl, rfl⟩
  · obtain ⟨mark, rfl⟩ := hbecomes.eq
    exact .inr ⟨r', hr', rfl, rfl⟩

/-- Only records of the subject in the tenant are listed. -/
theorem record_of_lists {tenant : TenantId} {subject : SubjectId}
    (h : (⟨q, (b.answer q).1⟩ : Exchange).Lists id tenant subject) :
    ∃ r, b.store.find? id = some r ∧ r.tenant = tenant ∧ r.subject = subject := by
  cases q with
  | listRecords tenant' subject' =>
    obtain ⟨rfl, rfl, r, hr, rfl⟩ := h
    obtain ⟨⟨id, hfind⟩, hof⟩ := TokenStore.mem_list.1 hr
    exact ⟨r, TokenStore.id_of_find? hfind ▸ hfind, hof⟩
  | _ => exact h.elim

theorem Replies.record {r : TokenRecord} (hx : b.Replies q bound x b')
    (h : b'.store.find? id = some r) :
    (⟨q, x⟩ : Exchange).Records id r.tenant r.subject ∨
      ∃ r', b.store.find? id = some r' ∧ r'.tenant = r.tenant ∧ r'.subject = r.subject := by
  rcases hx.cases with ⟨-, rfl⟩ | ⟨rfl, -⟩
  · exact record_of_answer h
  · exact .inr ⟨r, h, rfl, rfl⟩

theorem Replies.lists {tenant : TenantId} {subject : SubjectId} (hx : b.Replies q bound x b')
    (h : (⟨q, x⟩ : Exchange).Lists id tenant subject) :
    ∃ r, b.store.find? id = some r ∧ r.tenant = tenant ∧ r.subject = subject := by
  rcases hx.cases with ⟨rfl, -⟩ | ⟨-, hfailed⟩
  · exact record_of_lists h
  · cases q with
    | listRecords tenant' subject' =>
      rcases hfailed with ⟨f, hf⟩ | hlie
      · obtain rfl := Option.some.inj hf
        exact h.elim
      · cases hlie
    | _ => exact h.elim

end Backend

/-! ### What requests leave -/

/-- The first `n` values of a supply name different records. -/
def Supply.Apart (s : Supply) (p : Primitives) (n : Nat) : Prop :=
  ∀ i < n, ∀ j < n, OpaqueValue.id p (s.value i) = OpaqueValue.id p (s.value j) → i = j

theorem Supply.Apart.mono {s : Supply} {p : Primitives} {n n' : Nat} (h : s.Apart p n')
    (hle : n ≤ n') : s.Apart p n :=
  fun i hi j hj => h i (by omega) j (by omega)

/-- The request is about other tokens. A sweep is about all. -/
def TokenRequest.Leaves (m : TokenManager) (t : Token) : TokenRequest → Prop
  | .refresh value | .revoke value => m.idOf? value ≠ some t.id
  | .revokeAll tenant subject =>
    ¬(tenant = t.tenant ∧ t.metadata.get? "subject_id" = some subject.text)
  | .generate _ _ | .verify _ => True
  | .sweep => False

/-- A value of a token that was minted stands for its identifier, if for anything. -/
theorem TokenManager.Minted.eq_of_idOf? {m : TokenManager} {past : List Exchange} {t : Token}
    (h : m.Minted past t) {id : TokenId} (hid : m.idOf? t.value = some id) : id = t.id := by
  unfold idOf? at hid
  cases hbacking : m.backing with
  | signed k =>
    obtain ⟨-, c, hvalue⟩ := h.signed k hbacking
    simp only [hbacking] at hid
    split at hid
    next v hv =>
      rw [hvalue] at hv
      exact (Option.some.inj hid).symm.trans (SignedCodec.id_of_decode_encode hv)
    · cases hid
  | stored =>
    obtain ⟨-, htid, -⟩ := h.stored hbacking
    simp only [hbacking] at hid
    exact (Option.some.inj hid).symm.trans htid.symm

namespace Pool

variable {ι : Type} [DecidableEq ι] {m : TokenManager} {b b' : Backend}
  {past : ι → List Exchange} {i j : ι} {id : TokenId} {tenant tenant' : TenantId}
  {subject subject' : SubjectId}

/-! ### Whose records there are -/

/-- A call has kept a record of the identifier for a subject of a tenant. -/
def Origin (past : ι → List Exchange) (id : TokenId) (tenant : TenantId) (subject : SubjectId) :
    Prop :=
  ∃ i, Trace (·.Records id tenant subject) (past i)

theorem Origin.after (h : Origin past id tenant subject) (i : ι) (x : Exchange) :
    Origin (after past i x) id tenant subject := by
  obtain ⟨j, hj⟩ := h
  exact ⟨j, trace_after.2 (.inl hj)⟩

/-- What is in the store or was listed was kept by a call, and all records that calls have kept of
one identifier are for the same subject of the same tenant. -/
structure Recording (b : Backend) (past : ι → List Exchange) : Prop where
  held : ∀ id r, b.store.find? id = some r → Origin past id r.tenant r.subject
  listed : ∀ i id tenant subject, Trace (·.Lists id tenant subject) (past i) →
    Origin past id tenant subject
  one : ∀ id tenant subject tenant' subject', Origin past id tenant subject →
    Origin past id tenant' subject' → tenant = tenant' ∧ subject = subject'

theorem Recording.step {x : Exchange} (h : Recording b past)
    (hheld : ∀ id r, b'.store.find? id = some r → x.Records id r.tenant r.subject ∨
      ∃ r', b.store.find? id = some r' ∧ r'.tenant = r.tenant ∧ r'.subject = r.subject)
    (hlisted : ∀ id tenant subject, x.Lists id tenant subject →
      ∃ r, b.store.find? id = some r ∧ r.tenant = tenant ∧ r.subject = subject)
    (hnew : ∀ id, x.Keeps id → ∀ j, ¬Trace (·.Keeps id) (past j)) :
    Recording b' (after past i x) := by
  have hkeeps : ∀ {id tenant subject}, Origin past id tenant subject → ¬x.Keeps id := by
    rintro id tenant subject ⟨j, y, hy, hrecords⟩ hx
    exact hnew id hx j ⟨y, hy, hrecords.keeps⟩
  refine ⟨fun id r hr => ?_, fun j id tenant subject hj => ?_, ?_⟩
  · rcases hheld id r hr with hx | ⟨r', hr', htenant, hsubject⟩
    · exact ⟨i, trace_after.2 (.inr ⟨rfl, hx⟩)⟩
    · rw [← htenant, ← hsubject]
      exact (h.held id r' hr').after i x
  · rcases trace_after.1 hj with hj | ⟨-, hx⟩
    · exact (h.listed j id tenant subject hj).after i x
    · obtain ⟨r, hr, rfl, rfl⟩ := hlisted id tenant subject hx
      exact (h.held id r hr).after i x
  · rintro id tenant subject tenant' subject' ⟨j, hj⟩ ⟨k, hk⟩
    rcases trace_after.1 hj with hj | ⟨-, hx⟩ <;> rcases trace_after.1 hk with hk | ⟨-, hx'⟩
    · exact h.one id tenant subject tenant' subject' ⟨j, hj⟩ ⟨k, hk⟩
    · exact absurd hx'.keeps (hkeeps ⟨j, hj⟩)
    · exact absurd hx.keeps (hkeeps ⟨k, hk⟩)
    · obtain ⟨q, a⟩ := x
      cases q with
      | insertRecord r => exact ⟨hx.2.1.symm.trans hx'.2.1, hx.2.2.symm.trans hx'.2.2⟩
      | _ => exact hx.elim

/-! ### All requests side by side -/

/-- What holds at every moment while calls are made for any requests. -/
structure Minting (m : TokenManager) (b : Backend) (past : ι → List Exchange) : Prop where
  drawing : Drawing m.primitives 0 b past
  recording : Recording b past

omit [DecidableEq ι] in
theorem Minting.begin (m : TokenManager) (clock : Instant) (supply : Supply) :
    Minting m (.new clock supply) (fun _ : ι => []) where
  drawing := drawing_nil ..
  recording := {
    held := fun _ _ h => by cases h
    listed := fun _ _ _ _ h => absurd h trace_nil
    one := fun _ _ _ _ _ ⟨_, h⟩ => absurd h trace_nil }

/-- No question that a request may ask breaks the invariant, whatever it is answered. -/
theorem Minting.answer {request : TokenRequest} {q : Ask} {bound : Bool} {x : q.Answer}
    (h : Minting m b past) (hx : b.Replies q bound x b')
    (hapart : m.backing = .stored → b'.supply.Apart m.primitives b'.drawn)
    (hmay : (m.conduct request).may (past i) q) : Minting m b' (after past i ⟨q, x⟩) := by
  constructor
  · have hstep := h.drawing.step (i := i) (x := ⟨q, x⟩) hx.supply_eq hx.drawn_le
    cases q with
    | freshValue =>
      rcases hx.cases with ⟨rfl, rfl⟩ | ⟨-, ⟨f, hf⟩ | hlie⟩
      · refine h.drawing.draw (Nat.zero_le _) fun n _ hn he => ?_
        have := hapart hmay n (Nat.lt_succ_of_lt hn) b.drawn (Nat.lt_succ_self _) he
        omega
      · cases hf
      · cases hlie
    | insertRecord r =>
      obtain ⟨-, y, hlast, hid⟩ := hmay
      exact hstep (fun _ h => h) (fun id he => ⟨y, draws_of_getLast? hlast, he ▸ hid⟩)
        fun _ h => h.elim
    | deleteRecord s id =>
      exact hstep (fun _ h => h) (fun _ h => h.elim) fun id' he => he ▸ hmay.2
    | _ => exact hstep (fun _ h => h) (fun _ h => h.elim) fun _ h => h.elim
  · -- A record is kept only under the value drawn last, for which no call has kept one yet.
    refine h.recording.step (fun id r => hx.record) (fun id tenant subject => hx.lists)
      fun id hkeeps j => ?_
    cases q with
    | insertRecord r =>
      obtain ⟨-, y, hlast, hid⟩ := hmay
      obtain rfl : r.id = id := hkeeps
      rw [hid]
      exact h.drawing.unkept hlast j
    | _ => exact hkeeps.elim

omit [DecidableEq ι] in
/-- A call about other tokens asks nothing that touches a token that another call has minted. -/
theorem Minting.untouched {request : TokenRequest} {q : Ask} {t : Token} (h : Minting m b past)
    (hminted : m.Minted (past j) t) (hij : i ≠ j) (hleaves : request.Leaves m t)
    (hmay : (m.conduct request).may (past i) q) : ¬q.Touches t.id := by
  have hstruck : ¬request.Strikes m (past i) t.id := by
    intro hstrikes
    cases request with
    | refresh value => exact hleaves hstrikes
    | revoke value => exact hleaves hstrikes
    | revokeAll tenant subject =>
      obtain ⟨hstored, hlists⟩ := hstrikes
      obtain ⟨-, -, subject', hrecords, hmeta⟩ := hminted.stored hstored
      obtain ⟨htenant, rfl⟩ := h.recording.one t.id tenant subject t.tenant subject'
        (h.recording.listed i t.id tenant subject hlists) ⟨j, hrecords⟩
      exact hleaves ⟨htenant, hmeta⟩
    | _ => exact hstrikes
  cases q with
  | insertRecord r =>
    obtain ⟨hstored, x, hlast, hid⟩ := hmay
    intro he
    refine h.drawing.unkept hlast j ?_
    rw [← hid, he]
    exact hminted.keeps hstored
  | deleteRecord s id =>
    -- Both calls would have kept a record under the identifier of a value that they drew.
    obtain ⟨hstored, hkept⟩ := hmay
    rintro rfl
    obtain ⟨x, hx, hid⟩ := h.drawing.drawn i _ hkept
    obtain ⟨y, hy, hid'⟩ := h.drawing.drawn j _ (hminted.keeps hstored)
    exact hij (h.drawing.apart i j x y hx hy (hid.symm.trans hid'))
  | addRevocation id time =>
    rintro rfl
    exact hstruck hmay
  | revokeRecord s id time =>
    rintro rfl
    exact hstruck hmay
  | cleanupRecords time =>
    obtain rfl := hmay
    exact hleaves.elim
  | cleanupRevocations time =>
    obtain rfl := hmay
    exact hleaves.elim
  | _ => exact id

variable {clock : Instant} {supply : Supply} {calls : ι → TokenRequest} {who : ι → Prop}
  {pool pool' : Pool ι TokenReply} {t : Token} {reply : TokenReply}

/-- The calls for some requests on a new backend. -/
abbrev launch (m : TokenManager) (clock : Instant) (supply : Supply) (calls : ι → TokenRequest) :
    Pool ι TokenReply :=
  .start (.new clock supply) fun i => m.serve (calls i)

/-- In every pool that is reached the invariant holds, and the tokens that are handed out were
minted. -/
theorem leads_minting (h : Leads who (launch m clock supply calls) pool)
    (hapart : m.backing = .stored → supply.Apart m.primitives pool.backend.drawn) :
    Minting m pool.backend pool.past ∧ ∀ i, (pool.rest i).Follows (m.conduct (calls i))
      (fun past r => ∀ t ∈ r.tokens, m.Minted past t) (pool.past i) := by
  refine h.follows (P := fun i => m.conduct (calls i))
    (fun b => m.backing = .stored → b.supply.Apart m.primitives b.drawn)
    (fun b b' q bound x hx hb hstored => ?_) (fun b time hb => hb)
    (fun b b' past i q bound x hx hb hI hmay => ?_) (fun b past time hI => ?_)
    (.begin m clock supply) (fun i => m.follows_serve (calls i) []) ?_
  · exact (hx.supply_eq ▸ hb hstored).mono hx.drawn_le
  · obtain ⟨ended, ls, ls', hrespond⟩ := id hx
    exact ⟨TokenManager.respond_expected (congrArg Prod.fst hrespond), hI.answer hx hb hmay⟩
  · exact ⟨{ hI.drawing with }, { hI.recording with }⟩
  · rwa [h.supply_eq]

/-- A call has returned the token. -/
def HandsOut (pool : Pool ι TokenReply) (t : Token) : Prop :=
  ∃ i r, pool.rest i = .done r ∧ t ∈ r.tokens

/-- While only calls about other tokens take steps, what is known of a token that was handed out stays
the same. -/
theorem agrees_of_leads (hreached : Leads (fun _ => True) (launch m clock supply calls) pool)
    (hdone : pool.rest j = .done reply) (ht : t ∈ reply.tokens) (hleads : Leads who pool pool')
    (hapart : m.backing = .stored → supply.Apart m.primitives pool'.backend.drawn)
    (hleaves : ∀ i, who i → (calls i).Leaves m t) :
    pool.backend.Agrees pool'.backend t.id := by
  induction hleads with
  | refl => exact .refl _ _
  | @tail pool₁ pool₂ hleads hstep ih =>
    have hle := Leads.drawn_le (.single hstep)
    have hapart₁ := fun hs => (hapart hs).mono hle
    obtain ⟨hminting, hcalls⟩ :=
      leads_minting (hreached.trans (Leads.mono hleads fun _ _ => trivial)) hapart₁
    have hminted := hcalls j
    rw [Leads.done hleads hdone] at hminted
    refine (ih hapart₁).trans ?_
    cases hstep with
    | @answer i q bound next x b hi hask hx =>
      have hji : j ≠ i := ne_of_asks (Leads.done hleads hdone) hask
      have hcall := hcalls i
      rw [hask] at hcall
      exact hx.agrees (hminting.untouched (hminted t ht) hji.symm (hleaves i hi) hcall.1)
    | clock => exact ⟨rfl, rfl⟩

/-- A token that was handed out was minted by its call. -/
theorem HandsOut.minted (h : pool.HandsOut t)
    (hreached : Leads who (launch m clock supply calls) pool)
    (hapart : m.backing = .stored → supply.Apart m.primitives pool.backend.drawn) :
    ∃ i, m.Minted (pool.past i) t := by
  obtain ⟨i, reply, hdone, ht⟩ := h
  have hends := (leads_minting hreached hapart).2 i
  rw [hdone] at hends
  exact ⟨i, hends t ht⟩

/-- The request presents no value of the token, and does not revoke all tokens of its subject. What
it presents may be any text; if that stands for the token's identifier, it is an issued value. -/
def Spares (m : TokenManager) (pool : Pool ι TokenReply) (t : Token) : TokenRequest → Prop
  | .refresh value | .revoke value => value ≠ t.value ∧
    (m.idOf? value = some t.id → ∃ t', pool.HandsOut t' ∧ t'.value = value)
  | .revokeAll tenant subject =>
    ¬(tenant = t.tenant ∧ t.metadata.get? "subject_id" = some subject.text)
  | .generate _ _ | .verify _ => True
  | .sweep => False

omit [DecidableEq ι] in
/-- If issued values stand for identifiers of their own, a request that spares a token is about other
tokens. -/
theorem Spares.leaves {request : TokenRequest} (h : Spares m pool t request)
    (hother : ∀ t', pool.HandsOut t' → t'.value ≠ t.value → m.idOf? t'.value ≠ some t.id) :
    request.Leaves m t := by
  have hpresented : ∀ value, value ≠ t.value →
      (m.idOf? value = some t.id → ∃ t', pool.HandsOut t' ∧ t'.value = value) →
      m.idOf? value ≠ some t.id := by
    intro value hne hissued hid
    obtain ⟨t', ht', rfl⟩ := hissued hid
    exact hother t' ht' hne hid
  cases request with
  | refresh value => exact hpresented value h.1 h.2
  | revoke value => exact hpresented value h.1 h.2
  | _ => exact h

/-- Let any calls be made on a new backend, in any order of their steps and over any disturbances.
While only calls take steps that spare a token that was handed out, whatever they return and however
far they get, the token verifies as before, at every time and over all lines. Different issued values
are taken to have different identifiers, and so are the values that are drawn. -/
theorem others_stand (hreached : Leads (fun _ => True) (launch m clock supply calls) pool)
    (ht : pool.HandsOut t) (hleads : Leads who pool pool')
    (hapart : m.backing = .stored → supply.Apart m.primitives pool'.backend.drawn)
    (hids : ∀ t t', pool'.HandsOut t → pool'.HandsOut t' → t.value ≠ t'.value → t.id ≠ t'.id)
    (hspares : ∀ i, who i → Spares m pool' t (calls i)) (time : Instant)
    (ended : Option Cancelled) (ls : Lines) :
    ((m.serve (.verify t.value)).run (Backend.respond ended)
        ({ pool'.backend with clock := time }, ls)).1 =
      ((m.serve (.verify t.value)).run (Backend.respond ended)
        ({ pool.backend with clock := time }, ls)).1 := by
  have hreached' : Leads (fun _ => True) (launch m clock supply calls) pool' :=
    hreached.trans (Leads.mono hleads fun _ _ => trivial)
  obtain ⟨j, reply, hdone, hmem⟩ := ht
  have ht' : pool'.HandsOut t := ⟨j, reply, Leads.done hleads hdone, hmem⟩
  have hid : ∀ t', pool'.HandsOut t' → ∀ id, m.idOf? t'.value = some id → id = t'.id := by
    intro t' ht' id hid
    obtain ⟨i, hminted⟩ := ht'.minted hreached' hapart
    exact hminted.eq_of_idOf? hid
  have hleaves : ∀ i, who i → (calls i).Leaves m t := fun i hi =>
    (hspares i hi).leaves fun t' hissued hne he =>
      hids t' t hissued ht' hne (hid t' hissued _ he).symm
  have hagrees := agrees_of_leads hreached hdone hmem hleads hapart hleaves
  have hnow : Backend.Agrees { pool.backend with clock := time }
      { pool'.backend with clock := time } t.id := ⟨hagrees.listed, hagrees.record⟩
  exact TokenManager.run_verify_agrees hnow rfl (hid t ht') ended ls

end Pool

namespace Sample

/-! ### A token is revoked, and another one is not -/

open Pool TokenManager

variable (p : Primitives)

/-- Two tokens are issued, and the first one is revoked. -/
def requests : Fin 3 → TokenRequest
  | 0 => .generate claims .refresh
  | 1 => .generate claims .access
  | 2 => .revoke (token p .refresh).value

/-- The pool after some of the calls have returned. -/
def returned (b : Backend) (past : Fin 3 → List Exchange) (replies : List (Fin 3 × TokenReply)) :
    Pool (Fin 3) TokenReply where
  backend := b
  past := past
  rest := replies.foldr (fun r rest => Function.update rest r.1 (.done r.2))
    fun i => (manager p).serve (requests p i)

variable {p} {b b' : Backend} {i : Fin 3} {reply : TokenReply}

theorem leads_returned (past : Fin 3 → List Exchange) (replies : List (Fin 3 × TokenReply))
    (hi : i ∉ replies.map Prod.fst)
    (h : b.run ((manager p).serve (requests p i)) = (.done reply, b')) :
    ∃ past', Leads (· = i) (returned p b past replies)
      (returned p b' past' ((i, reply) :: replies)) := by
  have hrest : (returned p b past replies).rest i = (manager p).serve (requests p i) := by
    unfold returned
    simp only
    induction replies with
    | nil => rfl
    | cons r replies ih =>
      rw [List.map_cons, List.mem_cons, not_or] at hi
      exact (Function.update_of_ne hi.1 ..).trans (ih hi.2)
  have hrun : ∃ ls', ((returned p b past replies).rest i).run (Backend.respond none)
      (b, .direct) = (.done reply, (b', ls')) := by
    have hdirect : Lines.direct.Undisturbed := fun _ _ h => (nomatch h)
    obtain ⟨ls', he⟩ :=
      Procedure.run_undisturbed ((manager p).serve (requests p i)) none (b := b) hdirect
    rw [hrest, he, h]
    exact ⟨ls', rfl⟩
  obtain ⟨ls', hrun⟩ := hrun
  exact leads_alone (by rfl) hrun

/-- Two tokens are issued one after the other. -/
theorem two_issued (p : Primitives) :
    ∃ t b past, Leads (fun _ => True) (launch (manager p) empty.clock .counting (requests p))
        (returned p b past [(1, .token (.ok t)), (0, .token (.ok (token p .refresh)))]) ∧
      (manager p).Issues claims .access (issued p .refresh) t b := by
  have hfirst : empty.run ((manager p).serve (requests p 0)) =
      (.done (.token (.ok (token p .refresh))), issued p .refresh) := rfl
  obtain ⟨past, hpast⟩ := leads_returned (fun _ => []) [] nofun hfirst
  rcases exec_issue_of_check (m := manager p) (c := claims) rfl .access (issued p .refresh) with
    ⟨t, b, he, hissues⟩ | ⟨-, hnone⟩
  · have hsecond : (issued p .refresh).run ((manager p).serve (requests p 1)) =
        (.done (.token (.ok t)), b) := by
      have hgenerate : (issued p .refresh).exec ((manager p).generate claims .access) =
          (.done (.ok t), b) := he
      show Backend.run ((manager p).serve (.generate claims .access)) (issued p .refresh) = _
      rw [TokenManager.serve, Backend.run_reply, hgenerate, Outcome.map]
    obtain ⟨past', hpast'⟩ :=
      leads_returned past [(0, .token (.ok (token p .refresh)))] (by simp) hsecond
    refine ⟨t, b, past', ?_, hissues⟩
    exact (Leads.mono hpast fun _ _ => trivial).trans (Leads.mono hpast' fun _ _ => trivial)
  · cases hnone

/-- Two tokens are handed out in all. -/
theorem handed_out {past : Fin 3 → List Exchange} {t t' x : Token} {r : Except TokenError Unit}
    (h : (returned p b past
      [(2, .revoked r), (1, .token (.ok t)), (0, .token (.ok t'))]).HandsOut x) :
    x = t ∨ x = t' := by
  obtain ⟨i, reply, hdone, hx⟩ := h
  match i with
  | 0 =>
    obtain rfl : .token (.ok t') = reply := Procedure.done.inj hdone
    exact .inr (List.mem_singleton.1 hx)
  | 1 =>
    obtain rfl : .token (.ok t) = reply := Procedure.done.inj hdone
    exact .inl (List.mem_singleton.1 hx)
  | 2 =>
    obtain rfl : .revoked r = reply := Procedure.done.inj hdone
    cases hx

/-- The first token can be revoked after the second one was issued. -/
theorem exec_revoke_first {p : Primitives} {t : Token}
    (hissues : (manager p).Issues claims .access (issued p .refresh) t b)
    (hne : (token p .refresh).id ≠ t.id) :
    (b.exec ((manager p).revoke (token p .refresh).value)).1 = .done (.ok ()) := by
  have hfind : b.store.find? (token p .refresh).id = some ((token p .refresh).record claims) := by
    rw [(hissues.agrees hne).record]
    simp [issued, TokenManager.keep, manager, Token.record]
  exact exec_revoke_of_found
    (found_of_find? (m := manager p) rfl (isWellFormed_value p .refresh) hfind)

end Sample

open Sample in
/-- Of two tokens the first one is revoked, and the second one verifies as before. -/
theorem Pool.stands_beside_revoked :
    ∃ (pool pool' : Pool (Fin 3) TokenReply) (t : Token),
      pool.rest 0 = .done (.token (.ok (token .standard .refresh))) ∧
      pool.rest 1 = .done (.token (.ok t)) ∧ Leads (· = 2) pool pool' ∧
      pool'.rest 2 = .done (.revoked (.ok ())) ∧
      ∀ time ended ls,
        (((manager .standard).serve (.verify t.value)).run (Backend.respond ended)
          ({ pool'.backend with clock := time }, ls)).1 =
        (((manager .standard).serve (.verify t.value)).run (Backend.respond ended)
          ({ pool.backend with clock := time }, ls)).1 := by
  obtain ⟨t, b, past, hreached, hissues⟩ := two_issued .standard
  obtain ⟨hvalue, hid⟩ := hissues.stored rfl
  have hne : (token .standard .refresh).id ≠ t.id := fun he => by
    have := fresh_four.distinct 0 (by omega) 1 (by omega) (he.trans (hid.trans (by rw [hvalue]; rfl)))
    omega
  have hrevoked : b.run ((manager .standard).serve (requests .standard 2)) =
      (.done (.revoked (.ok ())),
        (b.exec ((manager .standard).revoke (token .standard .refresh).value)).2) := by
    show Backend.run ((manager .standard).serve (.revoke (token .standard .refresh).value)) b = _
    rw [TokenManager.serve, Backend.run_reply, exec_revoke_first hissues hne, Outcome.map]
  obtain ⟨past', hpast'⟩ := leads_returned past
    [(1, .token (.ok t)), (0, .token (.ok (token .standard .refresh)))] (by simp) hrevoked
  refine ⟨_, _, t, rfl, rfl, hpast', rfl, fun time ended ls => ?_⟩
  have hdrawn : (b.exec ((manager .standard).revoke (token .standard .refresh).value)).2.drawn = 2 :=
    (TokenManager.exec_revoke ..).drawn_eq.trans hissues.drawn_eq
  have hvalues : (token .standard .refresh).value ≠ t.value := fun he => by
    rw [hid, ← he] at hne
    exact hne rfl
  refine others_stand hreached ⟨1, _, rfl, List.mem_singleton_self _⟩ hpast'
    (fun _ i hi j hj => fresh_four.distinct i ?_ j ?_) ?_ ?_ time ended ls
  · exact Nat.lt_of_lt_of_le (hdrawn ▸ hi) (by decide)
  · exact Nat.lt_of_lt_of_le (hdrawn ▸ hj) (by decide)
  · intro t₁ t₂ h₁ h₂ hdiffer
    rcases handed_out h₁ with rfl | rfl <;> rcases handed_out h₂ with rfl | rfl
    · exact absurd rfl hdiffer
    · exact hne.symm
    · exact hne
    · exact absurd rfl hdiffer
  · rintro i rfl
    refine ⟨hvalues, fun _ => ⟨token .standard .refresh, ⟨0, _, rfl, ?_⟩, rfl⟩⟩
    exact List.mem_singleton_self _

end AccessControl
