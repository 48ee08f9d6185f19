import AccessControl.Proofs.Tenant.Identities
import AccessControl.Proofs.Token.Consulting

/-!
# The share of a tenant in a token backend

The revocation list names identifiers and no tenants; the records say whose they are. Revoking all
tokens of a subject of another tenant touches records and entries of that tenant alone
(`TokenManager.run_revokeAll_share`), whichever calls fail, and a verification reads only what the
tenant of the value can see (`TokenManager.run_verify_share`).
-/

namespace AccessControl

namespace TokenStore

def share (st : TokenStore) (tenant : TenantId) : TokenStore :=
  st.filter fun _ r => r.tenant = tenant

theorem find?_share {st : TokenStore} {tenant : TenantId} {id : TokenId}
    (h : ∀ r, st.find? id = some r → r.tenant = tenant) :
    (st.share tenant).find? id = st.find? id := by
  unfold share
  rw [find?_filter]
  cases hr : st.find? id with
  | none => rfl
  | some r => simp [Option.filter, h r hr]

end TokenStore

namespace Backend

variable {b : Backend} {tenant : TenantId} {id : TokenId}

/-- Under the identifier is a record of another tenant. -/
def Foreign (b : Backend) (tenant : TenantId) (id : TokenId) : Prop :=
  ∃ r, b.store.find? id = some r ∧ r.tenant ≠ tenant

/-- No record under the identifier is another tenant's. -/
def sees (b : Backend) (tenant : TenantId) (id : TokenId) : Bool :=
  (b.store.find? id).all (·.tenant = tenant)

theorem sees_eq_false : b.sees tenant id = false ↔ b.Foreign tenant id := by
  unfold sees Foreign
  cases b.store.find? id <;> simp

def share (b : Backend) (tenant : TenantId) : Backend :=
  { b with
    store := b.store.share tenant
    revocations := ⟨b.revocations.entries.filter fun id _ => b.sees tenant id⟩ }

theorem share_congr {b' : Backend}
    (hsame : b'.clock = b.clock ∧ b'.supply = b.supply ∧ b'.drawn = b.drawn)
    (hstore : b'.store.share tenant = b.store.share tenant)
    (hsees : ∀ id, b'.sees tenant id = b.sees tenant id)
    (hentries : ∀ id, b.sees tenant id = true →
      b'.revocations.expiry? id = b.revocations.expiry? id) :
    b'.share tenant = b.share tenant := by
  obtain ⟨hclock, hsupply, hdrawn⟩ := hsame
  have hrevocations : b'.revocations.entries.filter (fun id _ => b'.sees tenant id) =
      b.revocations.entries.filter fun id _ => b.sees tenant id := by
    refine SortedMap.ext fun id => ?_
    rw [SortedMap.get?_filter, SortedMap.get?_filter, hsees id]
    cases hid : b.sees tenant id with
    | true =>
      have hentry := hentries id hid
      rw [RevocationList.expiry?, RevocationList.expiry?] at hentry
      rw [hentry]
    | false => cases b'.revocations.entries.get? id <;> cases b.revocations.entries.get? id <;> rfl
  unfold share
  rw [hclock, hsupply, hdrawn, hstore, hrevocations]

/-- Another tenant's token may be put on the revocation list. -/
theorem share_add (h : b.Foreign tenant id) (t : Instant) :
    (b.answer (.addRevocation id t)).2.share tenant = b.share tenant := by
  refine share_congr ⟨rfl, rfl, rfl⟩ rfl (fun _ => rfl) fun id' hid' => ?_
  have hne : id' ≠ id := by
    rintro rfl
    rw [sees_eq_false.2 h] at hid'
    cases hid'
  show (b.revocations.add id t).2.expiry? id' = _
  rw [RevocationList.expiry?_add, if_neg hne]

theorem find?_revoke_tenant (b : Backend) (s : SubjectId) (id id' : TokenId) (t : Instant) :
    ((b.store.revoke s id t).2.find? id').map (·.tenant) = (b.store.find? id').map (·.tenant) := by
  rw [TokenStore.find?_revoke, Option.map_map]
  congr 1
  funext r
  simp only [Function.comp]
  split <;> simp

theorem sees_revoke (b : Backend) (tenant : TenantId) (s : SubjectId) (id id' : TokenId)
    (t : Instant) : (b.answer (.revokeRecord s id t)).2.sees tenant id' = b.sees tenant id' := by
  have hall : ∀ o : Option TokenRecord,
      o.all (·.tenant = tenant) = (o.map (·.tenant)).all (· = tenant) := by
    intro o
    cases o <;> rfl
  show ((b.store.revoke s id t).2.find? id').all (·.tenant = tenant) = _
  rw [hall, find?_revoke_tenant, ← hall]
  rfl

/-- Another tenant's record may be marked. -/
theorem share_revoke (h : b.Foreign tenant id) (s : SubjectId) (t : Instant) :
    (b.answer (.revokeRecord s id t)).2.share tenant = b.share tenant := by
  refine share_congr ⟨rfl, rfl, rfl⟩ ?_ (sees_revoke b tenant s id · t) fun _ _ => rfl
  obtain ⟨r, hr, htenant⟩ := h
  refine TokenStore.ext fun id' => ?_
  show ((b.store.revoke s id t).2.filter _).find? id' = (b.store.filter _).find? id'
  rw [TokenStore.find?_filter, TokenStore.find?_filter, TokenStore.find?_revoke]
  by_cases hid : id' = id
  · subst hid
    rw [hr]
    by_cases hs : r.subject = s <;> simp [Option.filter, hs, htenant]
  · simp [hid]

theorem answer_findRecord_share (h : b.sees tenant id = true) :
    (b.share tenant).answer (.findRecord id) =
      ((b.answer (.findRecord id)).1, (b.answer (.findRecord id)).2.share tenant) := by
  have hfind : (b.share tenant).store.find? id = b.store.find? id :=
    TokenStore.find?_share (by simpa [sees, Option.all_eq_true] using h)
  exact congrArg (fun x => (Except.ok x, b.share tenant)) hfind

theorem answer_findRevocation_share (h : b.sees tenant id = true) :
    (b.share tenant).answer (.findRevocation id) =
      ((b.answer (.findRevocation id)).1, (b.answer (.findRevocation id)).2.share tenant) := by
  have hget : (b.revocations.entries.filter fun id _ => b.sees tenant id).get? id =
      b.revocations.entries.get? id := SortedMap.get?_filter_of_pos fun _ => h
  exact congrArg (fun x : Option Instant => (Except.ok x.isSome, b.share tenant)) hget

/-- What a projection of the backend answers alike, it answers alike over any lines. -/
theorem respond_without {f : Backend → Backend} {q : Ask} {l : List Target}
    (hl : ∀ t, q.target? = some t → t ∉ l)
    (hf : (f b).answer q = ((b.answer q).1, f (b.answer q).2)) (ended : Option Cancelled)
    (bound : Bool) (ls : Lines) :
    respond ended q bound (f b, ls.without l) =
      ((respond ended q bound (b, ls)).1,
        (f (respond ended q bound (b, ls)).2.1, (respond ended q bound (b, ls)).2.2.without l)) :=
  respond_image (g := (·.without l)) hf fun t ht => Lines.call_without (hl t ht)

end Backend

/-! ### Revoking all tokens of another tenant's subject -/

/-- The lines that the revocation of all tokens of a subject uses. -/
def Target.ofRevokeAll : List Target := [.storeList, .storeRevoke, .revocationAdd]

/-- The rules for a call in the name of other tenants, of whose records the identifiers are given. -/
def foreignProtocol (tenant : TenantId) (foreign : TokenId → Prop) : Protocol where
  may _
    | .now => True
    | .listRecords tenant' _ => tenant' ≠ tenant
    | .addRevocation id _ | .revokeRecord _ id _ => foreign id
    | _ => False
  expect
    | .listRecords _ _, x => ∀ l, x = .ok l → ∀ r ∈ l, foreign r.id
    | _, _ => True
  mayAbort _ := False

/-- After some calls in the name of other tenants, the share of the tenant is what it was. -/
structure Spared (tenant : TenantId) (s s' : Backend × Lines) : Prop where
  share : s'.1.share tenant = s.1.share tenant
  sees : ∀ id, s'.1.sees tenant id = s.1.sees tenant id
  lines : s'.2.without Target.ofRevokeAll = s.2.without Target.ofRevokeAll

namespace Spared

variable {tenant : TenantId} {s s' : Backend × Lines} {past : List Exchange} {q : Ask}

theorem foreign_iff (h : Spared tenant s s') {id : TokenId} :
    s'.1.Foreign tenant id ↔ s.1.Foreign tenant id := by
  rw [← Backend.sees_eq_false, ← Backend.sees_eq_false, h.sees]

/-- One more question in the name of another tenant makes no difference. -/
theorem respond (h : Spared tenant s s')
    (hq : (foreignProtocol tenant (s.1.Foreign tenant)).may past q) (ended : Option Cancelled)
    (bound : Bool) : Spared tenant s (Backend.respond ended q bound s').2 := by
  obtain ⟨b, ls⟩ := s'
  obtain ⟨heffect, hlines, -⟩ := Backend.respond_effect ended q bound b ls
  generalize (Backend.respond ended q bound (b, ls)).2 = s'' at heffect hlines ⊢
  obtain ⟨b', ls'⟩ := s''
  simp only at heffect hlines
  have hrest : ls'.without Target.ofRevokeAll = s.2.without Target.ofRevokeAll := by
    refine Eq.trans ?_ h.lines
    subst hlines
    cases q with
    | now => rfl
    | listRecords => exact Lines.call_without_of_mem (by decide)
    | addRevocation => exact Lines.call_without_of_mem (by decide)
    | revokeRecord => exact Lines.call_without_of_mem (by decide)
    | _ => exact hq.elim
  rcases heffect with rfl | rfl
  · exact ⟨h.share, h.sees, hrest⟩
  · cases q with
    | now => exact ⟨h.share, h.sees, hrest⟩
    | listRecords => exact ⟨h.share, h.sees, hrest⟩
    | addRevocation id t =>
      exact ⟨(Backend.share_add (h.foreign_iff.2 hq) t).trans h.share, h.sees, hrest⟩
    | revokeRecord subject id t =>
      exact ⟨(Backend.share_revoke (h.foreign_iff.2 hq) subject t).trans h.share,
        fun id' => (Backend.sees_revoke ..).trans (h.sees id'), hrest⟩
    | _ => exact hq.elim

/-- The records that are listed for another tenant are not the tenant's. -/
theorem expected (h : Spared tenant s s')
    (hq : (foreignProtocol tenant (s.1.Foreign tenant)).may past q) {ended : Option Cancelled}
    {bound : Bool} {x : q.Answer} (hx : (Backend.respond ended q bound s').1 = some x) :
    (foreignProtocol tenant (s.1.Foreign tenant)).expect q x := by
  cases q with
  | listRecords tenant' subject =>
    obtain ⟨b, ls⟩ := s'
    rintro l rfl r hr
    rcases (Backend.respond_effect ended _ bound b ls).2.2 _ hx with hl | ⟨f, hf⟩ | hlie
    · obtain rfl := Except.ok.inj hl
      obtain ⟨⟨id, hid⟩, htenant, -⟩ := TokenStore.mem_list.1 hr
      refine h.foreign_iff.1 ⟨r, ?_, fun he => hq (htenant.symm.trans he)⟩
      rwa [TokenStore.id_of_find? hid]
    · cases hf
    · cases hlie
  | _ => trivial

end Spared

namespace TokenManager

variable {m : TokenManager} {b : Backend} {tenant tenant' : TenantId} {foreign : TokenId → Prop}
  {past : List Exchange}

open Operation Procedure

theorem follows_revokeEach (subject : SubjectId) (now : Instant) {rs : List TokenRecord}
    (h : ∀ r ∈ rs, foreign r.id) :
    Operation.Follows (foreignProtocol tenant foreign) (fun _ _ => True) past
      (revokeEach subject now rs) := by
  induction rs generalizing past with
  | nil => exact follows_pure trivial
  | cons r rs ih =>
    have hr := h r (List.mem_cons_self ..)
    have hadd : ∀ past, Operation.Follows (foreignProtocol tenant foreign) (fun _ _ => True) past
        (addRevocation r.id r.expiresAt) :=
      fun _ => follows_checked (follows_boundCall hr fun _ _ => trivial)
    have hmark : ∀ past, Operation.Follows (foreignProtocol tenant foreign) (fun _ _ => True) past
        (checked .ofStore (boundCall (.revokeRecord subject r.id now))) :=
      fun _ => follows_checked (follows_boundCall hr fun _ _ => trivial)
    have hrest : ∀ past, Operation.Follows (foreignProtocol tenant foreign) (fun _ _ => True) past
        (revokeEach subject now rs) := fun _ => ih fun r' hr' => h r' (List.mem_cons_of_mem _ hr')
    refine (hadd past).bind (fun past new _ => ?_) fun _ _ _ => trivial
    refine (hmark past).bind (fun past _ _ => ?_) fun _ _ _ => trivial
    exact (hrest past).bind (fun _ _ _ => follows_pure trivial) fun _ _ _ => trivial

theorem follows_revokeAll (h : tenant' ≠ tenant) (subject : SubjectId) :
    Operation.Follows (foreignProtocol tenant foreign) (fun _ _ => True) []
      (m.revokeAll tenant' subject) := by
  unfold revokeAll
  cases m.backing with
  | signed k => exact follows_throw trivial
  | stored =>
    simp only
    have hnow : Operation.Follows (foreignProtocol tenant foreign) (fun _ _ => True) []
        (liftM (call .now) : Operation Instant) := ⟨trivial, fun _ _ => trivial⟩
    refine hnow.bind (fun past now _ => ?_) fun _ _ _ => trivial
    have hlist : Operation.Follows (foreignProtocol tenant foreign)
        (fun _ x => ∀ l, x = .ok l → ∀ r ∈ l, foreign r.id) past
        (checked .ofStore (boundCall (.listRecords tenant' subject))) := by
      refine follows_checked (follows_boundCall h fun x hx l hl => ?_)
      cases x with
      | ok l' => exact hx l (congrArg _ (Except.ok.inj hl))
      | error f => cases hl
    refine hlist.bind (fun past records hrecords => ?_) fun _ _ _ => trivial
    exact follows_revokeEach subject now fun r hr =>
      hrecords records rfl r (List.mem_filter.1 hr).1

/-- The share of a tenant in what a manager keeps. Signed tokens are kept by their holders. -/
def share (m : TokenManager) (tenant : TenantId) (b : Backend) : Backend :=
  match m.backing with
  | .signed _ => b
  | .stored => b.share tenant

/-- Revoking all tokens of a subject of another tenant spares the share of the tenant. -/
theorem run_revokeAll_share (h : tenant' ≠ tenant) (subject : SubjectId)
    (ended : Option Cancelled) (b : Backend) (ls : Lines) :
    Spared tenant (b, ls)
      ((m.revokeAll tenant' subject).run.run (Backend.respond ended) (b, ls)).2 := by
  have hfollows : Operation.Follows (foreignProtocol tenant (b.Foreign tenant)) (fun _ _ => True)
      [] (m.revokeAll tenant' subject) := follows_revokeAll h subject
  refine Procedure.Follows.run hfollows ⟨rfl, fun _ => rfl, rfl⟩ fun past q bound s hq hs => ?_
  exact ⟨hs.respond hq ended bound, fun x hx => hs.expected hq hx⟩

theorem share_revokeAll (h : tenant' ≠ tenant) (subject : SubjectId) (ended : Option Cancelled)
    (b : Backend) (ls : Lines) :
    m.share tenant ((m.revokeAll tenant' subject).run.run (Backend.respond ended) (b, ls)).2.1 =
      m.share tenant b := by
  have hspared := run_revokeAll_share (m := m) h subject ended b ls
  unfold share
  cases hbacking : m.backing with
  | signed k =>
    unfold revokeAll
    rw [hbacking]
    rfl
  | stored => exact hspared.share

/-! ### Verification -/

/-- An identifier that the tenant can see: to opaque tokens, the records say whose they are. -/
def Visible (m : TokenManager) (b : Backend) (tenant : TenantId) (id : TokenId) : Prop :=
  m.backing = .stored → b.sees tenant id = true

/-- The rules for looking up what a tenant can see. -/
def readingProtocol (m : TokenManager) (b : Backend) (tenant : TenantId) : Protocol where
  may _
    | .now => True
    | .findRecord id | .findRevocation id => m.Visible b tenant id
    | _ => False
  expect
    | .findRecord id, x => ∀ r, x = .ok (some r) → r.id = id
    | _, _ => True
  mayAbort _ := False

/-- The identifier that a value is looked up by, if it is opaque, is visible to the tenant: the value
is not of another tenant. -/
def Concerns (m : TokenManager) (b : Backend) (tenant : TenantId) (value : String) : Prop :=
  m.Visible b tenant (OpaqueValue.id m.primitives value)

theorem consults_reading {value : String} (h : m.Concerns b tenant value) :
    (m.readingProtocol b tenant).Consults m value where
  now _ := trivial
  findRecord _ _ := h
  findRevocation past id hid hstored := by
    rw [idOf?, hstored] at hid
    exact Option.some.inj hid ▸ h hstored
  keyed _ _ h := h

theorem follows_verify {value : String} (h : m.Concerns b tenant value) :
    Operation.Follows (m.readingProtocol b tenant) (fun _ _ => True) [] (m.verify value) :=
  Procedure.Follows.mono (consults_verify (consults_reading h) []) fun _ _ _ => trivial

/-- What may be asked is answered from the share. -/
theorem answer_share {q : Ask} (h : (m.readingProtocol b tenant).may past q) :
    (m.share tenant b).answer q = ((b.answer q).1, m.share tenant (b.answer q).2) := by
  unfold share
  cases hbacking : m.backing with
  | signed k => rfl
  | stored =>
    cases q with
    | now => rfl
    | findRecord id => exact Backend.answer_findRecord_share (h hbacking)
    | findRevocation id => exact Backend.answer_findRevocation_share (h hbacking)
    | _ => exact h.elim

/-- A verification reads no more than the share of the tenant, and no line that a revocation of all
tokens uses. -/
theorem run_verify_share {value : String} (h : m.Concerns b tenant value)
    (ended : Option Cancelled) (ls : Lines) :
    ((m.verify value).run.run (Backend.respond ended)
        (m.share tenant b, ls.without Target.ofRevokeAll)).1 =
      ((m.verify value).run.run (Backend.respond ended) (b, ls)).1 := by
  have hrespond : ∀ (past : List Exchange) (q : Ask) (bound : Bool) (s : Backend × Lines),
      (m.readingProtocol b tenant).may past q → s.1 = b →
      (Backend.respond ended q bound s).2.1 = b ∧
        (∀ y, (Backend.respond ended q bound s).1 = some y →
          (m.readingProtocol b tenant).expect q y) ∧
        Backend.respond ended q bound (m.share tenant s.1, s.2.without Target.ofRevokeAll) =
          ((Backend.respond ended q bound s).1,
            (m.share tenant (Backend.respond ended q bound s).2.1,
              (Backend.respond ended q bound s).2.2.without Target.ofRevokeAll)) := by
    rintro past q bound ⟨b', ls'⟩ hq rfl
    refine ⟨?_, fun y hy => ?_, Backend.respond_without ?_ (answer_share hq) ended bound ls'⟩
    · rcases (Backend.respond_effect ended q bound b' ls').1 with he | he
      · exact he
      · rw [he]
        cases q with
        | now | findRecord | findRevocation => rfl
        | _ => exact hq.elim
    · cases q with
      | findRecord id => exact Backend.respond_keyed hy
      | _ => trivial
    · cases q with
      | now => rintro t ⟨⟩
      | findRecord | findRevocation =>
        rintro t ht
        obtain rfl := Option.some.inj ht
        decide
      | _ => exact hq.elim
  have hrun := Procedure.Follows.run_eq (follows_verify h) (I := fun s => s.1 = b)
    (f := fun s => (m.share tenant s.1, s.2.without Target.ofRevokeAll)) (s := (b, ls)) rfl hrespond
  exact (Prod.ext_iff.1 hrun).1

end TokenManager

end AccessControl
