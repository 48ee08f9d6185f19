import AccessControl.Deployment
import AccessControl.Proofs.Guard.Admission
import AccessControl.Proofs.Tenant.Tokens

/-!
# Tenants do not see each other

Changes in the name of other tenants, in any number and order, leave a tenant's share of the whole
deployment as it was (`Deployment.share_performAll`), and whatever is asked for the tenant is
answered from that share: its identities, its decisions and the verdicts on its tokens
(`Deployment.isolated`).
-/

namespace AccessControl

/-- A change that is made in the name of one tenant. -/
inductive TenantOperation
  | grantRole (tenant : TenantId) (role : Role) (ps : List Permission)
  | revokeRole (tenant : TenantId) (role : Role) (p : Permission)
  | inheritRole (tenant : TenantId) (role parent : Role)
  | insertPolicy (p : Policy)
  | removePolicy (tenant : TenantId) (id : String)
  | grantAccess (e : AccessEntry)
  | revokeAccess (e : AccessEntry)
  | assignRoles (m : Membership) (l : List Role)
  | assignPermissions (m : Membership) (l : List Permission)
  | joinGroups (a : Account) (l : List String)
  | setProfile (a : Account) (p : SortedMap String Json)
  | cacheIdentity (i : Identity)
  | invalidate (tenant : TenantId) (subject : SubjectId)
  | revokeTokens (tenant : TenantId) (subject : SubjectId) (ended : Option Cancelled)

def TenantOperation.tenant : TenantOperation → TenantId
  | grantRole tenant _ _ | revokeRole tenant _ _ | inheritRole tenant _ _ | removePolicy tenant _
  | invalidate tenant _ | revokeTokens tenant _ _ => tenant
  | insertPolicy p => p.tenant
  | grantAccess e | revokeAccess e => e.tenant
  | assignRoles m _ | assignPermissions m _ => m.tenant
  | joinGroups a _ | setProfile a _ => a.tenant
  | cacheIdentity i => i.tenant

namespace Deployment

/-- The deployment after a change. A policy that is refused, and an identity whose time is not
representable, change nothing. -/
def perform (tokens : TokenManager) (d : Deployment) : TenantOperation → Deployment
  | .grantRole tenant role ps => d.withRoles (·.grant tenant role ps)
  | .revokeRole tenant role p => d.withRoles (·.revoke tenant role p)
  | .inheritRole tenant role parent => d.withRoles (·.inherit tenant role parent)
  | .insertPolicy p => d.withPolicies fun st => match st.insert p with
    | .ok st' => st'
    | .error _ => st
  | .removePolicy tenant id => d.withPolicies (·.remove tenant id)
  | .grantAccess e => d.withAccessList (·.grant e)
  | .revokeAccess e => d.withAccessList (·.revoke e)
  | .assignRoles m l => d.withDirectory (·.assign m l)
  | .assignPermissions m l => d.withDirectory (·.grant m l)
  | .joinGroups a l => d.withDirectory (·.join a l)
  | .setProfile a p => d.withDirectory (·.setProfile a p)
  | .cacheIdentity i => { d with cache := d.cache.map fun c => (c.insert? i d.clock).getD c }
  | .invalidate tenant subject => { d with cache := d.cache.map (·.invalidate tenant subject) }
  | .revokeTokens tenant subject ended => (d.run ended (tokens.revokeAll tenant subject).run).2

def performAll (tokens : TokenManager) (d : Deployment) (ops : List TenantOperation) : Deployment :=
  ops.foldl (perform tokens) d

/-- All that a deployment keeps for one tenant. -/
def share (tokens : TokenManager) (tenant : TenantId) (d : Deployment) : Deployment where
  backend := tokens.share tenant d.backend
  lines := d.lines.without Target.ofRevokeAll
  directory := d.directory.share tenant
  cache := d.cache.map (·.share tenant)
  rights := d.rights.share tenant

variable {tokens : TokenManager} {tenant : TenantId} {d : Deployment}

theorem map_share {α β : Type} {x : Except DecisionError α} {f : α → α} {g : α → β}
    (h : ∀ a, g (f a) = g a) : (x.map f).map g = x.map g := by
  cases x with
  | error e => rfl
  | ok a => exact congrArg Except.ok (h a)

theorem share_withRoles {f : RoleTable → RoleTable}
    (h : ∀ t : RoleTable, (f t).share tenant = t.share tenant) :
    (d.withRoles f).share tokens tenant = d.share tokens tenant := by
  have hstore : (d.rights.roles.map f).map (·.share tenant) = d.rights.roles.map (·.share tenant) :=
    map_share h
  unfold share withRoles Rights.share
  simp only [hstore]

theorem share_withAccessList {f : AccessList → AccessList}
    (h : ∀ l : AccessList, (f l).share tenant = l.share tenant) :
    (d.withAccessList f).share tokens tenant = d.share tokens tenant := by
  have hstore : (d.rights.accessList.map f).map (·.share tenant) =
      d.rights.accessList.map (·.share tenant) :=
    map_share h
  unfold share withAccessList Rights.share
  simp only [hstore]

theorem share_withPolicies {f : PolicyStore → PolicyStore}
    (h : ∀ st : PolicyStore, (f st).share tenant = st.share tenant) :
    (d.withPolicies f).share tokens tenant = d.share tokens tenant := by
  have hstore : (d.rights.policies.map f).map (·.share tenant) =
      d.rights.policies.map (·.share tenant) :=
    map_share h
  unfold share withPolicies Rights.share
  simp only [hstore]

theorem share_withDirectory {f : Directory → Directory}
    (h : (f d.directory).share tenant = d.directory.share tenant) :
    (d.withDirectory f).share tokens tenant = d.share tokens tenant := by
  unfold share withDirectory
  simp only [h]

theorem share_withCache {f : IdentityCache → IdentityCache}
    (h : ∀ c : IdentityCache, (f c).share tenant = c.share tenant) :
    ({ d with cache := d.cache.map f } : Deployment).share tokens tenant =
      d.share tokens tenant := by
  have hcache : (d.cache.map f).map (·.share tenant) = d.cache.map (·.share tenant) := by
    cases d.cache with
    | none => rfl
    | some c => exact congrArg some (h c)
  unfold share
  simp only [hcache]

/-- A change in the name of another tenant leaves the share of a tenant as it was. -/
theorem share_perform {op : TenantOperation} (h : op.tenant ≠ tenant) :
    (d.perform tokens op).share tokens tenant = d.share tokens tenant := by
  cases op with
  | grantRole tenant' role ps => exact share_withRoles fun _ => RoleTable.share_grant h role ps
  | revokeRole tenant' role p => exact share_withRoles fun _ => RoleTable.share_revoke h role p
  | inheritRole tenant' role parent =>
    exact share_withRoles fun _ => RoleTable.share_inherit h role parent
  | insertPolicy p =>
    refine share_withPolicies fun st => ?_
    cases hst : st.insert p with
    | ok st' => exact PolicyStore.share_insert h hst
    | error f => rfl
  | removePolicy tenant' id => exact share_withPolicies fun _ => PolicyStore.share_remove h id
  | grantAccess e => exact share_withAccessList fun _ => AccessList.share_grant h
  | revokeAccess e => exact share_withAccessList fun _ => AccessList.share_revoke h
  | assignRoles m l => exact share_withDirectory (Directory.share_assign h l)
  | assignPermissions m l => exact share_withDirectory (Directory.share_grant h l)
  | joinGroups a l => exact share_withDirectory (Directory.share_join h l)
  | setProfile a p => exact share_withDirectory (Directory.share_setProfile h p)
  | cacheIdentity i =>
    refine share_withCache fun c => ?_
    cases hc : c.insert? i d.clock with
    | none => rfl
    | some c' => exact IdentityCache.share_insert h hc
  | invalidate tenant' subject =>
    exact share_withCache fun _ => IdentityCache.share_invalidate h subject
  | revokeTokens tenant' subject ended =>
    have hne : tenant' ≠ tenant := h
    have hbackend := TokenManager.share_revokeAll (m := tokens) hne subject ended d.backend d.lines
    have hlines :=
      (TokenManager.run_revokeAll_share (m := tokens) hne subject ended d.backend d.lines).lines
    unfold share perform run
    simp only [hbackend, hlines]

/-- A change in the name of another tenant takes no value away from a tenant. -/
theorem concerns_perform {op : TenantOperation} (h : op.tenant ≠ tenant) {value : String} :
    tokens.Concerns (d.perform tokens op).backend tenant value ↔
      tokens.Concerns d.backend tenant value := by
  cases op with
  | revokeTokens tenant' subject ended =>
    have hsees : ∀ id, (d.perform tokens (.revokeTokens tenant' subject ended)).backend.sees
        tenant id = d.backend.sees tenant id :=
      (TokenManager.run_revokeAll_share (m := tokens) h subject ended d.backend d.lines).sees
    refine imp_congr_right fun _ => ?_
    rw [hsees]
  | _ => exact Iff.rfl

theorem share_performAll {ops : List TenantOperation} (h : ∀ op ∈ ops, op.tenant ≠ tenant) :
    (d.performAll tokens ops).share tokens tenant = d.share tokens tenant := by
  induction ops generalizing d with
  | nil => rfl
  | cons op ops ih =>
    have hrest := ih (d := d.perform tokens op) fun op' hop' => h op' (List.mem_cons_of_mem _ hop')
    exact hrest.trans (share_perform (h op (List.mem_cons_self ..)))

theorem concerns_performAll {ops : List TenantOperation} (h : ∀ op ∈ ops, op.tenant ≠ tenant)
    {value : String} :
    tokens.Concerns (d.performAll tokens ops).backend tenant value ↔
      tokens.Concerns d.backend tenant value := by
  induction ops generalizing d with
  | nil => exact Iff.rfl
  | cons op ops ih =>
    have hrest := ih (d := d.perform tokens op) fun op' hop' => h op' (List.mem_cons_of_mem _ hop')
    exact hrest.trans (concerns_perform (h op (List.mem_cons_self ..)))

/-! ### What is answered from the share -/

theorem identify_share (tokens : TokenManager) (sources : Sources) (ended : Option Cancelled)
    (d : Deployment) {s : Subject} (h : s.tenant = tenant) :
    ((d.share tokens tenant).identify sources ended s).1 = (d.identify sources ended s).1 := by
  have hclock : (d.share tokens tenant).clock = d.clock := by
    unfold clock share TokenManager.share
    cases tokens.backing <;> rfl
  have hlines : ∀ t ∈ Providers.targets, t ∉ Target.ofRevokeAll := by decide
  unfold identify
  rw [hclock]
  exact Providers.resolve_share (p := d.providers sources) h d.clock ended d.cache d.lines hlines

theorem decide_share (tokens : TokenManager) (m : Model) (d : Deployment) {q : Request}
    (h : q.identity.tenant = tenant) :
    m.decide (d.share tokens tenant).rights q (d.share tokens tenant).clock =
      m.decide d.rights q d.clock := by
  have hclock : (d.share tokens tenant).clock = d.clock := by
    unfold clock share TokenManager.share
    cases tokens.backing <;> rfl
  subst h
  rw [hclock]
  exact m.decide_share d.rights q d.clock

theorem verify_share {value : String} (h : tokens.Concerns d.backend tenant value)
    (ended : Option Cancelled) :
    ((d.share tokens tenant).run ended (tokens.verify value).run).1 =
      (d.run ended (tokens.verify value).run).1 :=
  TokenManager.run_verify_share h ended d.lines

/-- Whatever is done in the name of other tenants, the tenant's identities, decisions and verdicts
stay as they are. -/
theorem isolated {ops : List TenantOperation} (h : ∀ op ∈ ops, op.tenant ≠ tenant) :
    (∀ sources ended (s : Subject), s.tenant = tenant →
      ((d.performAll tokens ops).identify sources ended s).1 = (d.identify sources ended s).1) ∧
    (∀ (m : Model) (q : Request), q.identity.tenant = tenant →
      m.decide (d.performAll tokens ops).rights q (d.performAll tokens ops).clock =
        m.decide d.rights q d.clock) ∧
    ∀ ended value, tokens.Concerns d.backend tenant value →
      ((d.performAll tokens ops).run ended (tokens.verify value).run).1 =
        (d.run ended (tokens.verify value).run).1 := by
  have hshare : (d.performAll tokens ops).share tokens tenant = d.share tokens tenant :=
    share_performAll h
  refine ⟨fun sources ended s hs => ?_, fun m q hq => ?_, fun ended value hvalue => ?_⟩
  · rw [← identify_share tokens sources ended _ hs, hshare, identify_share tokens sources ended d hs]
  · rw [← decide_share tokens m _ hq, hshare, decide_share tokens m d hq]
  · rw [← verify_share ((concerns_performAll h).2 hvalue), hshare, verify_share hvalue]

end Deployment

namespace Sample

/-! ### A subject of another tenant with the same name -/

variable (p : Primitives)

/-- What another tenant does about its own subject of this name. -/
def namesake : List TenantOperation :=
  let tenant : TenantId := ⟨"globex"⟩
  [.grantRole tenant ⟨"reader"⟩ [], .assignRoles ⟨tenant, ⟨"billing"⟩, ⟨"alice"⟩⟩ [⟨"admin"⟩],
    .revokeAccess ⟨tenant, ⟨"billing"⟩, ⟨"alice"⟩, "invoice", "7", "read"⟩,
    .invalidate tenant ⟨"alice"⟩, .revokeTokens tenant ⟨"alice"⟩ none]

theorem concerns_token (kind : TokenKind) :
    (manager p).Concerns (issued p kind) ⟨"acme"⟩ (token p kind).value := by
  intro _
  rw [← Bool.not_eq_false, Backend.sees_eq_false]
  rintro ⟨r, hr, htenant⟩
  have hfind : (issued p kind).store.find? (token p kind).id =
      some ((token p kind).record claims) := by
    simp [issued, TokenManager.keep, manager, Token.record]
  obtain rfl := Option.some.inj (hfind.symm.trans hr)
  exact htenant rfl

end Sample

open Sample in
theorem Deployment.isolated_from_namesake :
    (((deployment .standard).performAll (manager .standard) namesake).identify .none none reader).1 =
        .done (.ok (entitlements.identity reader ⟨"billing"⟩)) ∧
      Model.accessList.decide ((deployment .standard).performAll (manager .standard) namesake).rights
        ⟨(admission .standard).identity, intent.resource, intent.action, intent.context⟩
        ((deployment .standard).performAll (manager .standard) namesake).clock =
          .ok (admission .standard).decision ∧
      (((deployment .standard).performAll (manager .standard) namesake).run none
        ((manager .standard).verify (token .standard .access).value).run).1 =
          .done (.ok (.ok ⟨claims, (token .standard .access).details⟩)) := by
  have hforeign : ∀ op ∈ namesake, op.tenant ≠ ⟨"acme"⟩ := by decide
  obtain ⟨hidentify, hdecide, hverify⟩ :=
    @isolated (manager .standard) ⟨"acme"⟩ (deployment .standard) namesake hforeign
  obtain ⟨ls, hrun⟩ := run_verify_reader .standard
  refine ⟨?_, ?_, ?_⟩
  · rw [hidentify .none none reader rfl]
    exact congrArg Prod.fst (identify_reader .standard .direct)
  · rw [hdecide .accessList _ rfl]
    rfl
  · rw [hverify none _ (concerns_token .standard .access), hrun]

end AccessControl
