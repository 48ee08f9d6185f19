import AccessControl.Model

/-!
# The shares of a tenant in the authorization stores

Every store keeps what belongs to all tenants in one place. The share of a tenant is what the store
keeps for that tenant alone: a change in the name of another tenant leaves it as it is, and a
decision on a request of the tenant looks at nothing else (`Model.evaluate_share`).
-/

namespace AccessControl

/-! ### Roles -/

namespace RoleTable

variable {t : RoleTable} {tenant tenant' : TenantId}

def share (t : RoleTable) (tenant : TenantId) : RoleTable where
  grants := t.grants.filter (·.tenant = tenant)
  links := t.links.filter (·.tenant = tenant)

theorem share_grant (h : tenant' ≠ tenant) (r : Role) (ps : List Permission) :
    (t.grant tenant' r ps).share tenant = t.share tenant := by
  have hgrants : (t.grants.insertMany (ps.map fun p => ⟨tenant', r, p⟩)).filter
      (·.tenant = tenant) = t.grants.filter (·.tenant = tenant) := by
    refine SortedSet.filter_insertMany fun g hg => ?_
    obtain ⟨p, -, rfl⟩ := List.mem_map.1 hg
    exact decide_eq_false h
  unfold share grant
  rw [hgrants]

theorem share_revoke (h : tenant' ≠ tenant) (r : Role) (p : Permission) :
    (t.revoke tenant' r p).share tenant = t.share tenant := by
  have hgrants : (t.grants.erase ⟨tenant', r, p⟩).filter (·.tenant = tenant) =
      t.grants.filter (·.tenant = tenant) := SortedSet.filter_erase (decide_eq_false h)
  unfold share revoke
  rw [hgrants]

theorem share_inherit (h : tenant' ≠ tenant) (r parent : Role) :
    (t.inherit tenant' r parent).share tenant = t.share tenant := by
  have hlinks : (t.links.insert ⟨tenant', r, parent⟩).filter (·.tenant = tenant) =
      t.links.filter (·.tenant = tenant) := SortedSet.filter_insert (decide_eq_false h)
  unfold share inherit
  rw [hlinks]

theorem linksOf_share : (t.share tenant).linksOf tenant = t.linksOf tenant := by
  simp [linksOf, share, SortedSet.filter]

theorem grantsOf_share (roles : List Role) :
    (t.share tenant).grantsOf tenant roles = t.grantsOf tenant roles := by
  have hreach : (t.share tenant).reachable tenant roles = t.reachable tenant roles := by
    unfold reachable
    rw [linksOf_share]
  unfold grantsOf
  rw [hreach]
  simp only [share, SortedSet.filter, List.filter_filter]
  refine List.filter_congr fun g _ => ?_
  cases decide (g.tenant = tenant) <;> simp

theorem permissionsOf_share (roles : List Role) :
    (t.share tenant).permissionsOf tenant roles = t.permissionsOf tenant roles := by
  unfold permissionsOf
  rw [grantsOf_share]

theorem findGrant_share (roles : List Role) (required : Permission) :
    (t.share tenant).findGrant tenant roles required = t.findGrant tenant roles required := by
  unfold findGrant
  rw [grantsOf_share]

end RoleTable

/-! ### Access lists -/

namespace AccessList

variable {l : AccessList} {tenant : TenantId} {e : AccessEntry}

def share (l : AccessList) (tenant : TenantId) : AccessList := ⟨l.entries.filter (·.tenant = tenant)⟩

theorem share_grant (h : e.tenant ≠ tenant) : (l.grant e).share tenant = l.share tenant := by
  exact congrArg AccessList.mk (SortedSet.filter_insert (decide_eq_false h))

theorem share_revoke (h : e.tenant ≠ tenant) : (l.revoke e).share tenant = l.share tenant := by
  exact congrArg AccessList.mk (SortedSet.filter_erase (decide_eq_false h))

theorem decide_share (q : Request) : (l.share q.identity.tenant).decide q = l.decide q := by
  have hgranted : ∀ id, (l.share q.identity.tenant).granted (.needed q id) =
      l.granted (.needed q id) := by
    intro id
    unfold granted share
    exact decide_eq_decide.2 (by simp [AccessEntry.needed])
  unfold AccessList.decide
  split
  · rfl
  · simp only [hgranted]

end AccessList

/-! ### Policies -/

namespace PolicyStore

variable {st st' : PolicyStore} {tenant : TenantId}

/-- The numbers of the policies stay as they are, and so does their order; the counter belongs to
all tenants. -/
def share (st : PolicyStore) (tenant : TenantId) : PolicyStore :=
  ⟨st.entries.filter (·.policy.tenant = tenant), 0⟩

/-- The policies of one tenant are not those at a place of another. -/
theorem filter_not_isAt {tenant' : TenantId} (h : tenant' ≠ tenant) (id : String)
    (l : List StoredPolicy) :
    (l.filter fun e => !isAt tenant' id e).filter (·.policy.tenant = tenant) =
      l.filter (·.policy.tenant = tenant) := by
  rw [List.filter_filter]
  refine List.filter_congr fun e _ => ?_
  by_cases he : e.policy.tenant = tenant
  · have hne : e.policy.tenant ≠ tenant' := fun he' => h (he'.symm.trans he)
    simp [isAt, hne]
  · simp [he]

theorem share_insert {p : Policy} (h : p.tenant ≠ tenant) (hst : st.insert p = .ok st') :
    st'.share tenant = st.share tenant := by
  unfold PolicyStore.insert at hst
  obtain ⟨s, hs, hst⟩ := Except.bind_eq_ok.1 hst
  obtain rfl := Except.ok.inj hst
  have hne : s.policy.tenant ≠ tenant := by
    rw [StoredPolicy.policy_of_ofPolicy hs]
    exact h
  unfold share
  rw [List.filter_append, filter_not_isAt h]
  simp [hne]

theorem share_remove {tenant' : TenantId} (h : tenant' ≠ tenant) (id : String) :
    (st.remove tenant' id).share tenant = st.share tenant := by
  unfold share remove
  rw [filter_not_isAt h]

theorem applicable_share (q : Request) :
    (st.share q.identity.tenant).applicable q = st.applicable q := by
  unfold applicable share
  rw [List.filter_filter]
  refine List.filter_congr fun e _ => ?_
  cases decide (e.policy.tenant = q.identity.tenant) <;> simp

end PolicyStore

/-! ### Decisions -/

def Rights.share (r : Rights) (tenant : TenantId) : Rights where
  roles := r.roles.map (·.share tenant)
  accessList := r.accessList.map (·.share tenant)
  policies := r.policies.map (·.share tenant)

/-- A model decides a request of a tenant on the tenant's shares of the stores. -/
theorem Model.evaluate_share (m : Model) (r : Rights) (q : Request) (now : Instant) :
    m.evaluate (r.share q.identity.tenant) q now = m.evaluate r q now := by
  induction m with
  | roles =>
    have hdecide : ∀ t : RoleTable,
        decideByRoles (t.share q.identity.tenant) q = decideByRoles t q := by
      intro t
      unfold decideByRoles
      rw [RoleTable.findGrant_share]
    rw [evaluate, evaluate, Rights.share]
    cases r.roles with
    | error e => rfl
    | ok t => exact congrArg Except.ok (hdecide t)
  | rules l => rfl
  | accessList =>
    rw [evaluate, evaluate, Rights.share]
    cases r.accessList with
    | error e => rfl
    | ok l => exact congrArg Except.ok (AccessList.decide_share q)
  | policies a =>
    rw [evaluate, evaluate, Rights.share]
    cases r.policies with
    | error e => rfl
    | ok st => exact congrArg (fun l => Except.ok (a.combine l)) (PolicyStore.applicable_share q)
  | hybrid inner constraints exemptions ih =>
    rw [evaluate, evaluate, ih]

theorem Model.decide_share (m : Model) (r : Rights) (q : Request) (now : Instant) :
    m.decide (r.share q.identity.tenant) q now = m.decide r q now := by
  unfold Model.decide
  rw [evaluate_share]

end AccessControl
