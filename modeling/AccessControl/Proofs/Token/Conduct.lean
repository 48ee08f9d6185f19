import AccessControl.Proofs.Token.Consulting
import AccessControl.Proofs.Token.Exchanging

/-!
# What requests ask

One set of rules for every request, whatever its collaborators answer (`TokenManager.conduct`): a
record is kept only for a value that was just drawn, a record is deleted only if the same request
has kept it, and only the presented token, or a token that was listed for the subject, is revoked.
`TokenManager.follows_serve` goes through the requests once; a token that is handed out was minted
on the way (`Minted`).
-/

namespace AccessControl

/-- A procedure that keeps to a protocol has a property of its exchanges and the state at its end, if
all answers keep it. -/
theorem Procedure.Follows.traced {α σ : Type} {respond : Procedure.Responder σ} {P : Protocol}
    {ends : List Exchange → α → Prop} {I : List Exchange → σ → Prop} {x : Procedure α}
    {past : List Exchange} {s : σ} (hx : x.Follows P ends past) (hI : I past s)
    (hrespond : ∀ past q bound s, P.may past q → I past s →
      ((respond q bound s).1 = none → I past (respond q bound s).2) ∧
      ∀ y, (respond q bound s).1 = some y →
        P.expect q y ∧ I (past ++ [⟨q, y⟩]) (respond q bound s).2) :
    ∃ past', I past' (x.run respond s).2 ∧ ((x.run respond s).1 = .aborted → P.mayAbort past') := by
  induction x generalizing past s with
  | done a => exact ⟨past, hI, fun h => by cases h⟩
  | abort => exact ⟨past, hI, fun _ => hx⟩
  | ask q bound next ih =>
    obtain ⟨hnone, hsome⟩ := hrespond past q bound s hx.1 hI
    rw [Procedure.run]
    generalize respond q bound s = r at hnone hsome ⊢
    obtain ⟨_ | y, s'⟩ := r
    · exact ⟨past, hnone rfl, fun h => by cases h⟩
    · obtain ⟨hexpect, hI'⟩ := hsome y rfl
      exact ih y (hx.2 y hexpect) hI'

namespace Exchange

/-- A record of the identifier is kept for a subject of a tenant. -/
def Records : Exchange → TokenId → TenantId → SubjectId → Prop
  | ⟨.insertRecord r, _⟩, id, tenant, subject =>
    r.id = id ∧ r.tenant = tenant ∧ r.subject = subject
  | _, _, _, _ => False

/-- A record of the identifier is listed for a subject of a tenant. -/
def Lists : Exchange → TokenId → TenantId → SubjectId → Prop
  | ⟨.listRecords tenant' subject', .ok l⟩, id, tenant, subject =>
    tenant' = tenant ∧ subject' = subject ∧ ∃ r ∈ l, r.id = id
  | _, _, _, _ => False

theorem Records.keeps {x : Exchange} {id : TokenId} {tenant : TenantId} {subject : SubjectId}
    (h : x.Records id tenant subject) : x.Keeps id := by
  obtain ⟨q, a⟩ := x
  cases q with
  | insertRecord r => exact h.1
  | _ => exact h.elim

end Exchange

/-- The request may revoke the token: it presents it, or has listed it for its subject. -/
def TokenRequest.Strikes (m : TokenManager) (past : List Exchange) (id : TokenId) :
    TokenRequest → Prop
  | .refresh value | .revoke value => m.idOf? value = some id
  | .revokeAll tenant subject => m.backing = .stored ∧ Trace (·.Lists id tenant subject) past
  | .generate _ _ | .verify _ | .sweep => False

theorem TokenRequest.Strikes.mono {m : TokenManager} {past past' : List Exchange} {id : TokenId}
    {q : TokenRequest} (h : q.Strikes m past id) (hle : past <+: past') :
    q.Strikes m past' id := by
  cases q with
  | revokeAll tenant subject => exact ⟨h.1, h.2.mono hle⟩
  | _ => exact h

namespace TokenManager

/-- The rules for a request. -/
def conduct (m : TokenManager) (q : TokenRequest) : Protocol where
  may past
    | .now | .findRecord _ | .findRevocation _ | .listRecords _ _ => True
    | .freshId => ∃ k, m.backing = .signed k
    | .freshValue => m.backing = .stored
    | .insertRecord r => m.backing = .stored ∧
      ∃ x, past.getLast? = some ⟨.freshValue, x⟩ ∧ r.id = OpaqueValue.id m.primitives x
    | .deleteRecord _ id => m.backing = .stored ∧ Trace (·.Keeps id) past
    | .addRevocation id _ | .revokeRecord _ id _ => q.Strikes m past id
    | .cleanupRecords _ | .cleanupRevocations _ => q = .sweep
  expect
    | .findRecord id, x => ∀ r, x = .ok (some r) → r.id = id
    | _, _ => True
  mayAbort past := ∃ t kind, Trace (·.Shows t) past ∧
    t.wholeSecond.addSeconds? (m.settings.lifetime kind) = none

/-- What a backend answers over any lines is what a request can count on. -/
theorem respond_expected {m : TokenManager} {q : TokenRequest} {ended : Option Cancelled} {a : Ask}
    {bound : Bool} {s : Backend × Lines} {x : a.Answer}
    (hx : (Backend.respond ended a bound s).1 = some x) : (m.conduct q).expect a x := by
  cases a with
  | findRecord id => exact Backend.respond_keyed hx
  | _ => trivial

/-- A token is made of what was drawn for it, and its record, if it has one, says whose it is. -/
structure Minted (m : TokenManager) (past : List Exchange) (t : Token) : Prop where
  signed : ∀ k, m.backing = .signed k →
    ⟨.freshId, t.id⟩ ∈ past ∧ ∃ c, t.value = k.encode c t.details
  stored : m.backing = .stored →
    ⟨.freshValue, t.value⟩ ∈ past ∧ t.id = OpaqueValue.id m.primitives t.value ∧
      ∃ subject, Trace (·.Records t.id t.tenant subject) past ∧
        t.metadata.get? "subject_id" = some subject.text

theorem Minted.mono {m : TokenManager} {past past' : List Exchange} {t : Token}
    (h : m.Minted past t) (hle : past <+: past') : m.Minted past' t := by
  refine ⟨fun k hk => ?_, fun hs => ?_⟩
  · obtain ⟨hid, hvalue⟩ := h.signed k hk
    exact ⟨hle.subset hid, hvalue⟩
  · obtain ⟨hvalue, hid, subject, hrecords, hof⟩ := h.stored hs
    exact ⟨hle.subset hvalue, hid, subject, hrecords.mono hle, hof⟩

/-- A stored token that was minted has its record kept. -/
theorem Minted.keeps {m : TokenManager} {past : List Exchange} {t : Token} (h : m.Minted past t)
    (hs : m.backing = .stored) : Trace (·.Keeps t.id) past := by
  obtain ⟨-, -, subject, ⟨x, hx, hrecords⟩, -⟩ := h.stored hs
  exact ⟨x, hx, hrecords.keeps⟩

variable {m : TokenManager} {q : TokenRequest} {past : List Exchange} {value : String}

open Operation Procedure

/-! ### Verification -/

theorem consults_conduct (m : TokenManager) (q : TokenRequest) (value : String) :
    (m.conduct q).Consults m value :=
  ⟨fun _ => trivial, fun _ _ => trivial, fun _ _ _ => trivial, fun _ _ h => h⟩

theorem asks_now : Succeeds (m.conduct q) (fun past t => Trace (·.Shows t) past) past
    (liftM (call .now)) :=
  succeeds_lift <| follows_call trivial fun _ _ => trace_append.2 (.inr rfl)

/-! ### Issuing -/

theorem asks_mint (m : TokenManager) (q : TokenRequest) (c : Claims) (kind : TokenKind)
    (tenant : TenantId) (app : AppId) (subject : SubjectId) (issuedAt expiresAt : Instant)
    (past : List Exchange) :
    Operation.Follows (m.conduct q) (fun past x => ∀ value id, x = .ok (value, id) →
        (∀ k, m.backing = .signed k →
          ⟨.freshId, id⟩ ∈ past ∧ value = k.encode c ⟨id, kind, issuedAt, expiresAt⟩) ∧
        (m.backing = .stored → ⟨.freshValue, value⟩ ∈ past ∧
          id = OpaqueValue.id m.primitives value ∧ Trace (·.Records id tenant subject) past))
      past (m.mint c kind tenant app subject issuedAt expiresAt) := by
  unfold mint
  cases hbacking : m.backing with
  | signed k =>
    have hdraw : Succeeds (m.conduct q) (fun past id => ⟨.freshId, id⟩ ∈ past) past
        (liftM (call .freshId)) :=
      succeeds_lift <| follows_call ⟨k, hbacking⟩ fun id _ => by simp
    refine hdraw.bind fun past id hid => follows_pure fun value id' h => ?_
    obtain ⟨rfl, rfl⟩ := Prod.mk.inj (Except.ok.inj h)
    refine ⟨fun k' hk => ?_, fun hs => by cases hs⟩
    obtain rfl := TokenBacking.signed.inj hk
    exact ⟨hid, rfl⟩
  | stored =>
    have hdraw : Succeeds (m.conduct q)
        (fun past x => past.getLast? = some ⟨.freshValue, x⟩) past (liftM (call .freshValue)) :=
      succeeds_lift <| follows_call hbacking fun x _ => by simp
    refine hdraw.bind fun past x hlast => ?_
    have hinsert : ∀ r : TokenRecord, r.id = OpaqueValue.id m.primitives x →
        Operation.Follows (m.conduct q)
          (fun past' _ => past <+: past' ∧ Trace (·.Records r.id r.tenant r.subject) past') past
          (checked .ofStore (boundCall (.insertRecord r))) := by
      intro r hr
      refine follows_checked (follows_boundCall ⟨hbacking, x, hlast, hr⟩ fun y _ => ?_)
      exact ⟨List.prefix_append _ _, trace_append.2 (.inr ⟨rfl, rfl, rfl⟩)⟩
    refine (hinsert _ rfl).bind (fun past' _ h => ?_) fun _ _ _ _ _ h => by cases h
    obtain ⟨hle, hrecords⟩ := h
    refine follows_pure fun value id h => ?_
    obtain ⟨rfl, rfl⟩ := Prod.mk.inj (Except.ok.inj h)
    exact ⟨nofun, fun _ => ⟨hle.subset (List.mem_of_getLast? hlast), rfl, hrecords⟩⟩

theorem asks_issue (m : TokenManager) (q : TokenRequest) (c : Claims) (kind : TokenKind)
    (past : List Exchange) :
    Operation.Follows (m.conduct q) (fun past x => ∀ t, x = .ok t → m.Minted past t) past
      (m.issue c kind) := by
  unfold issue
  refine asks_now.bind fun past now hnow => ?_
  have hexpiry : Succeeds (m.conduct q) (fun _ _ => True) past
      (representable (now.wholeSecond.addSeconds? (m.settings.lifetime kind))) :=
    succeeds_representable (fun he => ⟨now, kind, hnow, he⟩) fun _ _ => trivial
  refine hexpiry.bind fun past expiresAt _ => ?_
  split
  · next tenant app subject _ _ _ =>
    refine (asks_mint m q c kind tenant app subject now.wholeSecond expiresAt past).bind
      (fun past minted h => ?_) fun _ _ _ _ h => by cases h
    obtain ⟨value, id⟩ := minted
    obtain ⟨hsigned, hstored⟩ := h value id rfl
    refine follows_pure fun t ht => ?_
    obtain rfl := Except.ok.inj ht
    refine ⟨fun k hk => ⟨(hsigned k hk).1, c, (hsigned k hk).2⟩, fun hs => ?_⟩
    obtain ⟨hvalue, hid, hrecords⟩ := hstored hs
    exact ⟨hvalue, hid, subject, hrecords, by simp⟩
  · exact follows_throw fun t h => by cases h

/-! ### Rotation -/

theorem asks_retire {d : TokenDetails} (past : List Exchange)
    (hstrikes : ∀ past, q.Strikes m past d.id) (retries : Nat) :
    (retire d retries).Follows (m.conduct q) (fun _ _ => True) past := by
  induction retries generalizing past with
  | zero => exact follows_call (hstrikes past) fun _ _ => trivial
  | succ n ih =>
    refine ⟨hstrikes past, fun x _ => ?_⟩
    cases x with
    | ok new => exact trivial
    | error f => exact ih _

theorem asks_markRevoked {id : TokenId} (past : List Exchange)
    (hstrikes : ∀ past, q.Strikes m past id) (c : Claims) :
    (m.markRevoked c id).Follows (m.conduct q) (fun _ _ => True) past := by
  unfold markRevoked
  split
  · exact ⟨trivial, fun _ _ => ⟨hstrikes _, fun _ _ => trivial⟩⟩
  · exact trivial

theorem asks_discard (c : Claims) {tokens : List Token} (h : ∀ t ∈ tokens, m.Minted past t) :
    (m.discard c tokens).Follows (m.conduct q) (fun _ _ => True) past := by
  unfold discard
  split
  · next hbacking _ =>
    induction tokens generalizing past with
    | nil => exact trivial
    | cons t tokens ih =>
      have ht := h t List.mem_cons_self
      refine ⟨⟨hbacking, ht.keeps hbacking⟩, fun x _ => ih fun t' ht' => ?_⟩
      exact (h t' (List.mem_cons_of_mem _ ht')).mono (List.prefix_append _ _)
  · exact trivial

theorem asks_refresh (m : TokenManager) (value : String) (past : List Exchange) :
    Operation.Follows (m.conduct (.refresh value))
      (fun past x => ∀ pair, x = .ok pair → m.Minted past pair.access ∧ m.Minted past pair.refresh)
      past (m.refresh value) := by
  unfold refresh
  refine (consults_verify (consults_conduct m _ value) past).bind (fun past found h => ?_)
    fun _ _ _ _ h => by cases h
  cases found with
  | error f => exact follows_throw fun pair h => by cases h
  | ok v =>
    have hstrikes : ∀ past, (TokenRequest.refresh value).Strikes m past v.details.id :=
      fun _ => h v rfl
    simp only
    split
    · refine (asks_issue m _ v.claims .access past).bind (fun past access haccess => ?_)
        fun _ _ _ _ h => by cases h
      have haccess := haccess access rfl
      -- the first token stays minted while the second is issued
      have hsecond : Operation.Follows (m.conduct (.refresh value))
          (fun past x => ∀ t, x = .ok t → m.Minted past access ∧ m.Minted past t) past
          (tryCatch (m.issue v.claims .refresh) fun e => do
            m.discard v.claims [access]
            throw e) := by
        have hissue := Procedure.Follows.extends
          (asks_issue m (.refresh value) v.claims .refresh past)
        refine Operation.Follows.tryCatch hissue (fun past' t h t' ht' => ?_) fun past' e h => ?_
        · exact ⟨haccess.mono h.1, h.2 t' ht'⟩
        · have hdiscard : (m.discard v.claims [access]).Follows (m.conduct (.refresh value))
              (fun _ _ => True) past' := by
            refine asks_discard v.claims fun t ht => ?_
            rw [List.mem_singleton.1 ht]
            exact haccess.mono h.1
          exact (succeeds_lift hdiscard).bind fun _ _ _ => follows_throw fun t h => by cases h
      refine hsecond.bind (fun past refresh hminted => ?_) fun _ _ _ _ h => by cases h
      obtain ⟨haccess, hrefresh⟩ := hminted refresh rfl
      have hretire := Procedure.Follows.extends
        (asks_retire past hstrikes (m.settings.revokeAttempts - 1))
      refine (succeeds_lift hretire).bind fun past' retired h => ?_
      have hboth : ∀ past'', past' <+: past'' →
          ∀ pair, (.ok ⟨access, refresh⟩ : Except TokenError TokenPair) = .ok pair →
          m.Minted past'' pair.access ∧ m.Minted past'' pair.refresh := by
        rintro past'' hle pair hpair
        obtain rfl := Except.ok.inj hpair
        exact ⟨haccess.mono (h.1.trans hle), hrefresh.mono (h.1.trans hle)⟩
      split
      · have hmark := Procedure.Follows.extends (asks_markRevoked past' hstrikes v.claims)
        refine (succeeds_lift hmark).bind fun past'' _ h' => follows_pure ?_
        exact hboth past'' h'.1
      · have hdiscard : (m.discard v.claims [access, refresh]).Follows
            (m.conduct (.refresh value)) (fun _ _ => True) past' := by
          refine asks_discard v.claims fun t ht => ?_
          rcases List.mem_cons.1 ht with rfl | ht
          · exact haccess.mono h.1
          · rw [List.mem_singleton.1 ht]
            exact hrefresh.mono h.1
        exact (succeeds_lift hdiscard).bind fun _ _ _ => follows_throw fun pair h => by cases h
      · exact follows_pure (hboth past' List.prefix_rfl)
    · exact follows_throw fun pair h => by cases h

/-! ### Revocation -/

theorem asks_addRevocation {id : TokenId} (hstrikes : q.Strikes m past id) (time : Instant) :
    Operation.Follows (m.conduct q) (fun past' _ => past <+: past') past
      (addRevocation id time) :=
  follows_checked (follows_boundCall hstrikes fun _ _ => List.prefix_append _ _)

theorem asks_revokeRecord {id : TokenId} (hstrikes : q.Strikes m past id)
    (fault : CallFault → TokenError) (subject : SubjectId) (time : Instant) :
    Operation.Follows (m.conduct q) (fun past' _ => past <+: past') past
      (checked fault (boundCall (.revokeRecord subject id time))) :=
  follows_checked (follows_boundCall hstrikes fun _ _ => List.prefix_append _ _)

theorem asks_revoke (m : TokenManager) (value : String) (past : List Exchange) :
    Operation.Follows (m.conduct (.revoke value)) (fun _ _ => True) past (m.revoke value) := by
  unfold revoke
  refine asks_now.bind fun past now _ => ?_
  cases hbacking : m.backing with
  | signed k =>
    simp only
    cases hv : k.decode value with
    | error f => exact follows_throw trivial
    | ok v =>
      have hstrikes : (TokenRequest.revoke value).Strikes m past v.details.id := by
        show m.idOf? value = _
        simp only [idOf?, hbacking, hv]
      simp only
      split
      · exact follows_pure trivial
      · exact (asks_addRevocation hstrikes _).bind (fun _ _ _ => follows_pure trivial)
          fun _ _ _ => trivial
  | stored =>
    have hstrikes : ∀ past,
        (TokenRequest.revoke value).Strikes m past (OpaqueValue.id m.primitives value) := by
      intro past
      show m.idOf? value = _
      simp only [idOf?, hbacking]
    simp only
    split
    · refine (consults_findRecord trivial (fun _ h => h) _).bind (fun past found _ => ?_)
        fun _ _ _ => trivial
      cases found with
      | none => exact follows_pure trivial
      | some r =>
        simp only
        split
        · exact follows_pure trivial
        · refine (asks_addRevocation (hstrikes past) _).bind (fun past _ _ => ?_)
            fun _ _ _ => trivial
          exact (asks_revokeRecord (hstrikes past) _ _ _).bind (fun _ _ _ => follows_pure trivial)
            fun _ _ _ => trivial
    · exact follows_throw trivial

theorem asks_revokeEach (subject : SubjectId) (now : Instant) {rs : List TokenRecord}
    (hstrikes : ∀ r ∈ rs, q.Strikes m past r.id) :
    Operation.Follows (m.conduct q) (fun _ _ => True) past (revokeEach subject now rs) := by
  induction rs generalizing past with
  | nil => exact follows_pure trivial
  | cons r rs ih =>
    have hr := hstrikes r List.mem_cons_self
    refine (asks_addRevocation hr _).bind (fun past' new hle => ?_) fun _ _ _ => trivial
    refine (asks_revokeRecord (hr.mono hle) _ _ _).bind (fun past'' _ hle' => ?_)
      fun _ _ _ => trivial
    have hrest : ∀ r' ∈ rs, q.Strikes m past'' r'.id := fun r' hr' =>
      (hstrikes r' (List.mem_cons_of_mem _ hr')).mono (hle.trans hle')
    exact (ih hrest).bind (fun _ _ _ => follows_pure trivial) fun _ _ _ => trivial

theorem asks_revokeAll (m : TokenManager) (tenant : TenantId) (subject : SubjectId)
    (past : List Exchange) :
    Operation.Follows (m.conduct (.revokeAll tenant subject)) (fun _ _ => True) past
      (m.revokeAll tenant subject) := by
  unfold revokeAll
  cases hbacking : m.backing with
  | signed k => exact follows_throw trivial
  | stored =>
    refine asks_now.bind fun past now _ => ?_
    have hlist : Operation.Follows (m.conduct (.revokeAll tenant subject))
        (fun past x => ∀ l, x = .ok l → ∀ r ∈ l, Trace (·.Lists r.id tenant subject) past) past
        (checked .ofStore (boundCall (.listRecords tenant subject))) := by
      refine follows_checked (follows_boundCall trivial fun x _ l hl r hr => ?_)
      cases x with
      | ok l' =>
        obtain rfl := Except.ok.inj hl
        exact trace_append.2 (.inr ⟨rfl, rfl, r, hr, rfl⟩)
      | error f => cases hl
    refine hlist.bind (fun past records h => ?_) fun _ _ _ => trivial
    exact asks_revokeEach subject now fun r hr =>
      ⟨hbacking, h records rfl r (List.mem_filter.1 hr).1⟩

/-! ### Requests -/

theorem asks_sweep (m : TokenManager) (past : List Exchange) :
    (AccessControl.sweep m.hasStore).Follows (m.conduct .sweep) (fun _ _ => True) past := by
  refine ⟨trivial, fun now _ => ⟨rfl, fun x _ => ?_⟩⟩
  cases m.hasStore with
  | false => exact trivial
  | true => exact ⟨rfl, fun _ _ => trivial⟩

/-- An operation's result is a reply that hands out its tokens. -/
theorem follows_reply {α : Type} {x : Operation α} {reply : Except TokenError α → TokenReply}
    {ends : List Exchange → Except TokenError α → Prop}
    (hx : Operation.Follows (m.conduct q) ends past x)
    (h : ∀ past r, ends past r → ∀ t ∈ (reply r).tokens, m.Minted past t) :
    (x.run.bind fun r => .done (reply r)).Follows (m.conduct q)
      (fun past r => ∀ t ∈ r.tokens, m.Minted past t) past :=
  Procedure.Follows.bind hx fun past r hr => h past r hr

/-- Every request keeps to its rules, and the tokens that it hands out were minted on the way. -/
theorem follows_serve (m : TokenManager) (q : TokenRequest) (past : List Exchange) :
    (m.serve q).Follows (m.conduct q) (fun past r => ∀ t ∈ r.tokens, m.Minted past t) past := by
  cases q with
  | generate c kind =>
    have hgenerate : Operation.Follows (m.conduct (.generate c kind))
        (fun past x => ∀ t, x = .ok t → m.Minted past t) past (m.generate c kind) := by
      unfold generate
      split
      · exact asks_issue m _ c kind past
      · exact follows_throw fun t h => by cases h
    refine follows_reply hgenerate fun past r h t ht => ?_
    cases r with
    | ok t' =>
      obtain rfl := List.mem_singleton.1 ht
      exact h t rfl
    | error e => cases ht
  | verify value =>
    exact follows_reply (consults_verify (consults_conduct m _ value) past)
      fun past r _ t ht => by cases ht
  | refresh value =>
    refine follows_reply (asks_refresh m value past) fun past r h t ht => ?_
    cases r with
    | ok pair =>
      obtain ⟨haccess, hrefresh⟩ := h pair rfl
      rcases List.mem_cons.1 ht with rfl | ht
      · exact haccess
      · rw [List.mem_singleton.1 ht]
        exact hrefresh
    | error e => cases ht
  | revoke value =>
    exact follows_reply (asks_revoke m value past) fun past r _ t ht => by cases ht
  | revokeAll tenant subject =>
    exact follows_reply (asks_revokeAll m tenant subject past) fun past r _ t ht => by cases ht
  | sweep =>
    exact Procedure.Follows.bind (asks_sweep m past) fun past r _ t ht => by cases ht

end TokenManager

end AccessControl
