import AccessControl.Model
import AccessControl.Proofs.Identity.Freshness
import Mathlib.Data.List.Induction
import Mathlib.Logic.Relation

/-!
# Inherited roles

A role table is the sum of its history: a role has a permission if it was granted and not revoked
since, and inherits from another for good. What the table answers is stated of the history alone.
The roles reached are those along a chain of inheritance, of any length and in circles as well
(`RoleTable.mem_reachable`); while they are visited, the parents of the seen roles are seen or
pending (`RoleTable.Frontier`). An identity that holds the permissions of its roles has exactly
those that a decision by roles would grant (`RoleTable.decisions_by_inheritance`).
-/

namespace AccessControl

/-- A change to a role table. -/
inductive RoleChange
  | grant (tenant : TenantId) (role : Role) (permissions : List Permission)
  | revoke (tenant : TenantId) (role : Role) (permission : Permission)
  | inherit (tenant : TenantId) (role parent : Role)
  deriving DecidableEq

/-- The permission was granted to the role, and was not revoked since. -/
def Role.Granted (r : Role) (cs : List RoleChange) (tenant : TenantId) (p : Permission) : Prop :=
  ∃ earlier ps later, cs = earlier ++ .grant tenant r ps :: later ∧ p ∈ ps ∧
    .revoke tenant r p ∉ later

/-- The role is one of the given ones, or one of them inherits from it, directly or not. -/
def Role.Reached (r : Role) (cs : List RoleChange) (tenant : TenantId) (roles : List Role) : Prop :=
  ∃ r₀ ∈ roles, Relation.ReflTransGen (fun r r' => .inherit tenant r r' ∈ cs) r₀ r

theorem Role.granted_concat {r : Role} {cs : List RoleChange} {c : RoleChange} {tenant : TenantId}
    {p : Permission} : r.Granted (cs ++ [c]) tenant p ↔
      (r.Granted cs tenant p ∧ c ≠ .revoke tenant r p) ∨ ∃ ps, c = .grant tenant r ps ∧ p ∈ ps := by
  constructor
  · rintro ⟨earlier, ps, later, hcs, hp, hlater⟩
    rcases List.eq_nil_or_concat later with rfl | ⟨later, c', rfl⟩
    · obtain ⟨-, rfl⟩ := List.append_singleton_inj.1 hcs
      exact .inr ⟨ps, rfl, hp⟩
    · rw [List.concat_eq_append] at hcs hlater
      rw [← List.cons_append, ← List.append_assoc] at hcs
      obtain ⟨rfl, rfl⟩ := List.append_singleton_inj.1 hcs
      rw [List.mem_append, not_or, List.mem_singleton] at hlater
      exact .inl ⟨⟨earlier, ps, later, rfl, hp, hlater.1⟩, Ne.symm hlater.2⟩
  · rintro (⟨⟨earlier, ps, later, rfl, hp, hlater⟩, hc⟩ | ⟨ps, rfl, hp⟩)
    · refine ⟨earlier, ps, later ++ [c], by simp, hp, ?_⟩
      rw [List.mem_append, not_or, List.mem_singleton]
      exact ⟨hlater, Ne.symm hc⟩
    · exact ⟨cs, ps, [], rfl, hp, List.not_mem_nil⟩

/-- What is reached depends on which roles are given, not on their order or number. -/
theorem Role.reached_congr {r : Role} {cs : List RoleChange} {tenant : TenantId}
    {roles roles' : List Role} (h : ∀ r, r ∈ roles ↔ r ∈ roles') :
    r.Reached cs tenant roles ↔ r.Reached cs tenant roles' := by
  simp only [Role.Reached, h]

namespace RoleTable

variable {cs : List RoleChange} {tenant : TenantId} {roles : List Role} {r : Role} {p : Permission}
  {required : Permission} {g : RoleGrant}

def change (t : RoleTable) : RoleChange → RoleTable
  | .grant tenant role ps => t.grant tenant role ps
  | .revoke tenant role p => t.revoke tenant role p
  | .inherit tenant role parent => t.inherit tenant role parent

/-- The table once a history of changes has been made to an empty one. -/
def after (cs : List RoleChange) : RoleTable := cs.foldl change empty

theorem after_concat (cs : List RoleChange) (c : RoleChange) :
    after (cs ++ [c]) = (after cs).change c := by
  unfold after
  rw [List.foldl_append, List.foldl_cons, List.foldl_nil]

theorem mem_grants_change {t : RoleTable} {c : RoleChange} :
    g ∈ (t.change c).grants ↔
      (g ∈ t.grants ∧ c ≠ .revoke g.tenant g.role g.permission) ∨
        ∃ ps, c = .grant g.tenant g.role ps ∧ g.permission ∈ ps := by
  obtain ⟨tenant, r, p⟩ := g
  cases c with
  | grant tenant' r' ps => simp [change, grant]; grind
  | revoke tenant' r' p' => simp [change, revoke]; grind
  | inherit tenant' r' r'' => simp [change, RoleTable.inherit]

theorem mem_links_change {t : RoleTable} {c : RoleChange} {l : RoleLink} :
    l ∈ (t.change c).links ↔ l ∈ t.links ∨ c = .inherit l.tenant l.role l.parent := by
  obtain ⟨tenant, r, r'⟩ := l
  cases c with
  | grant tenant' r' ps => simp [change, grant]
  | revoke tenant' r' p' => simp [change, revoke]
  | inherit tenant' r' r'' => simp [change, RoleTable.inherit]; grind

theorem mem_grants : g ∈ (after cs).grants ↔ g.role.Granted cs g.tenant g.permission := by
  induction cs using List.reverseRecOn with
  | nil => simp [after, empty, Role.Granted]
  | append_singleton cs c ih => rw [after_concat, mem_grants_change, ih, Role.granted_concat]

theorem mem_links {l : RoleLink} :
    l ∈ (after cs).links ↔ .inherit l.tenant l.role l.parent ∈ cs := by
  induction cs using List.reverseRecOn with
  | nil => simp [after, empty]
  | append_singleton cs c ih =>
    rw [after_concat, mem_links_change, ih, List.mem_append, List.mem_singleton, eq_comm (a := c)]

theorem mem_parentsOf {r' : Role} :
    r' ∈ parentsOf ((after cs).linksOf tenant) r ↔ .inherit tenant r r' ∈ cs := by
  simp only [parentsOf, linksOf, List.mem_map, List.mem_filter, decide_eq_true_eq,
    SortedSet.mem_toList]
  constructor
  · rintro ⟨l, ⟨⟨hl, rfl⟩, rfl⟩, rfl⟩
    exact mem_links.1 hl
  · intro h
    exact ⟨⟨tenant, r, r'⟩, ⟨⟨mem_links.2 h, rfl⟩, rfl⟩, rfl⟩

/-! ### Visiting -/

variable {links : List RoleLink} {pending seen : List Role}

/-- The parents of the seen roles are seen or pending. -/
def Frontier (links : List RoleLink) (pending seen : List Role) : Prop :=
  ∀ r ∈ seen, ∀ r' ∈ parentsOf links r, r' ∈ seen ∨ r' ∈ pending

theorem Frontier.skip (h : Frontier links (r :: pending) seen) (hr : r ∈ seen) :
    Frontier links pending seen := by
  intro r₁ hr₁ r' hr'
  rcases h r₁ hr₁ r' hr' with h | h
  · exact .inl h
  · rcases List.mem_cons.1 h with rfl | h
    · exact .inl hr
    · exact .inr h

theorem Frontier.see (h : Frontier links (r :: pending) seen) :
    Frontier links (parentsOf links r ++ pending) (r :: seen) := by
  intro r₁ hr₁ r' hr'
  rw [List.mem_cons, List.mem_append]
  rcases List.mem_cons.1 hr₁ with rfl | hr₁
  · exact .inr (.inl hr')
  · rcases h r₁ hr₁ r' hr' with h | h
    · exact .inl (.inr h)
    · rcases List.mem_cons.1 h with rfl | h
      · exact .inl (.inl rfl)
      · exact .inr (.inr h)

/-- What is visited was seen or is pending, or is inherited from what is pending. -/
theorem visit_sound (h : r ∈ visit links pending seen) :
    r ∈ seen ∨ ∃ r₀ ∈ pending, Relation.ReflTransGen (fun r r' => r' ∈ parentsOf links r) r₀ r := by
  induction pending, seen using visit.induct links with
  | case1 seen =>
    rw [visit] at h
    exact .inl h
  | case2 r₁ rest seen hseen ih =>
    rw [visit, if_pos hseen] at h
    rcases ih h with h | ⟨r₀, hr₀, hpath⟩
    · exact .inl h
    · exact .inr ⟨r₀, List.mem_cons_of_mem _ hr₀, hpath⟩
  | case3 r₁ rest seen hseen ih =>
    rw [visit, if_neg hseen] at h
    rcases ih h with h | ⟨r₀, hr₀, hpath⟩
    · rcases List.mem_cons.1 h with rfl | h
      · exact .inr ⟨r, List.mem_cons_self, .refl⟩
      · exact .inl h
    · rcases List.mem_append.1 hr₀ with hr₀ | hr₀
      · exact .inr ⟨r₁, List.mem_cons_self, .head hr₀ hpath⟩
      · exact .inr ⟨r₀, List.mem_cons_of_mem _ hr₀, hpath⟩

/-- What was seen or is pending is visited, and so are the parents of all that is. -/
theorem visit_complete (h : Frontier links pending seen) :
    (∀ r, r ∈ seen ∨ r ∈ pending → r ∈ visit links pending seen) ∧
      Frontier links [] (visit links pending seen) := by
  induction pending, seen using visit.induct links with
  | case1 seen =>
    rw [visit]
    exact ⟨fun r hr => hr.resolve_right List.not_mem_nil, h⟩
  | case2 r₁ rest seen hseen ih =>
    rw [visit, if_pos hseen]
    obtain ⟨hall, hclosed⟩ := ih (h.skip hseen)
    refine ⟨fun r hr => hall r ?_, hclosed⟩
    rcases hr with hr | hr
    · exact .inl hr
    · rcases List.mem_cons.1 hr with rfl | hr
      · exact .inl hseen
      · exact .inr hr
  | case3 r₁ rest seen hseen ih =>
    rw [visit, if_neg hseen]
    obtain ⟨hall, hclosed⟩ := ih h.see
    refine ⟨fun r hr => hall r ?_, hclosed⟩
    rw [List.mem_cons, List.mem_append]
    rw [List.mem_cons] at hr
    tauto

theorem mem_visit : r ∈ visit links pending [] ↔
    ∃ r₀ ∈ pending, Relation.ReflTransGen (fun r r' => r' ∈ parentsOf links r) r₀ r := by
  constructor
  · intro h
    exact (visit_sound h).resolve_left List.not_mem_nil
  · rintro ⟨r₀, hr₀, hpath⟩
    have hfrontier : Frontier links pending [] := fun r hr => absurd hr List.not_mem_nil
    obtain ⟨hall, hclosed⟩ := visit_complete hfrontier
    induction hpath with
    | refl => exact hall r₀ (.inr hr₀)
    | tail _ hparent ih => exact (hclosed _ ih _ hparent).resolve_right List.not_mem_nil

theorem mem_reachable :
    r ∈ (after cs).reachable tenant roles ↔ r.Reached cs tenant roles := by
  simp only [reachable, SortedSet.mem_ofList, mem_visit, mem_parentsOf, Role.Reached]

/-! ### Grants -/

theorem mem_grantsOf : g ∈ (after cs).grantsOf tenant roles ↔
    g.tenant = tenant ∧ g.role.Reached cs tenant roles ∧
      g.role.Granted cs tenant g.permission := by
  simp only [grantsOf, List.mem_filter, SortedSet.mem_toList, mem_grants, Bool.and_eq_true,
    decide_eq_true_eq, mem_reachable]
  constructor
  · rintro ⟨hgranted, rfl, hreached⟩
    exact ⟨rfl, hreached, hgranted⟩
  · rintro ⟨rfl, hreached, hgranted⟩
    exact ⟨hgranted, rfl, hreached⟩

theorem mem_permissionsOf : p ∈ (after cs).permissionsOf tenant roles ↔
    ∃ r : Role, r.Reached cs tenant roles ∧ r.Granted cs tenant p := by
  simp only [permissionsOf, SortedSet.mem_ofList, List.mem_map, mem_grantsOf]
  constructor
  · rintro ⟨g, ⟨-, hreached, hgranted⟩, rfl⟩
    exact ⟨g.role, hreached, hgranted⟩
  · rintro ⟨r, hreached, hgranted⟩
    exact ⟨⟨tenant, r, p⟩, ⟨rfl, hreached, hgranted⟩, rfl⟩

/-- The least of the reached roles with a covering permission, and the least such permission of
that role. -/
structure Leads (cs : List RoleChange) (tenant : TenantId) (roles : List Role)
    (required : Permission) (g : RoleGrant) : Prop where
  tenant_eq : g.tenant = tenant
  reached : g.role.Reached cs tenant roles
  granted : g.role.Granted cs tenant g.permission
  covers : g.permission.covers required = true
  least : ∀ (r : Role) (p : Permission), r.Reached cs tenant roles → r.Granted cs tenant p →
    p.covers required = true →
      g.role.name < r.name ∨ (g.role = r ∧ g.permission.text ≤ p.text)

theorem sorted_grantsOf (t : RoleTable) (tenant : TenantId) (roles : List Role) :
    SortedBy key (t.grantsOf tenant roles) :=
  t.grants.sorted.filter _

/-- In one tenant, grants are ordered by role and then by permission. -/
theorem key_lt_iff {g g' : RoleGrant} (h : g.tenant = g'.tenant) :
    key g < key g' ↔
      g.role.name < g'.role.name ∨ (g.role = g'.role ∧ g.permission.text < g'.permission.text) := by
  obtain ⟨tenant, ⟨role⟩, p⟩ := g
  obtain ⟨tenant', ⟨role'⟩, p'⟩ := g'
  obtain rfl : tenant = tenant' := h
  show [tenant.text, role, p.text] < [tenant.text, role', p'.text] ↔ _
  simp [List.cons_lt_cons_iff]

/-- The first grant found is the leading one. -/
theorem findGrant_eq_some : (after cs).findGrant tenant roles required = some g ↔
    Leads cs tenant roles required g := by
  rw [findGrant, (sorted_grantsOf ..).find?_eq_some_iff]
  constructor
  · rintro ⟨hg, hcovers, hleast⟩
    obtain ⟨htenant, hreached, hgranted⟩ := mem_grantsOf.1 hg
    refine ⟨htenant, hreached, hgranted, hcovers, fun r p hr hp hp' => ?_⟩
    have hmem : ⟨tenant, r, p⟩ ∈ (after cs).grantsOf tenant roles := mem_grantsOf.2 ⟨rfl, hr, hp⟩
    rcases hleast _ hmem hp' with rfl | hlt
    · exact .inr ⟨rfl, String.le_refl _⟩
    · rcases (key_lt_iff htenant).1 hlt with hlt | ⟨hrole, hlt⟩
      · exact .inl hlt
      · exact .inr ⟨hrole, fun hgt => String.lt_irrefl _ (String.lt_trans hlt hgt)⟩
  · intro h
    refine ⟨mem_grantsOf.2 ⟨h.tenant_eq, h.reached, h.granted⟩, h.covers, fun g' hg' hcovers => ?_⟩
    obtain ⟨htenant, hreached, hgranted⟩ := mem_grantsOf.1 hg'
    have heq : g.tenant = g'.tenant := h.tenant_eq.trans htenant.symm
    rw [key_lt_iff heq]
    rcases h.least _ _ hreached hgranted hcovers with hlt | ⟨hrole, hle⟩
    · exact .inr (.inl hlt)
    · rcases Std.lt_trichotomy g.permission.text g'.permission.text with hlt | htext | hgt
      · exact .inr (.inr ⟨hrole, hlt⟩)
      · have hkey : key g' = key g := by
          show [g'.tenant.text, g'.role.name, g'.permission.text] = _
          rw [← heq, ← hrole, ← htext]
          rfl
        exact .inl (key_injective.1 hkey)
      · exact absurd hgt hle

theorem findGrant_isSome : ((after cs).findGrant tenant roles required).isSome = true ↔
    ∃ p ∈ (after cs).permissionsOf tenant roles, p.covers required = true := by
  rw [findGrant, List.find?_isSome]
  simp only [permissionsOf, SortedSet.mem_ofList, List.mem_map]
  constructor
  · rintro ⟨g, hg, hcovers⟩
    exact ⟨g.permission, ⟨g, hg, rfl⟩, hcovers⟩
  · rintro ⟨_, ⟨g, hg, rfl⟩, hcovers⟩
    exact ⟨g, hg, hcovers⟩

/-! ### Decisions -/

theorem hasPermission_iff {i : Identity}
    (h : ∀ p, p ∈ i.permissions ↔ p ∈ (after cs).permissionsOf i.tenant i.roles.toList) :
    i.hasPermission required = true ↔
      ∃ p ∈ (after cs).permissionsOf i.tenant i.roles.toList, p.covers required = true := by
  simp only [Identity.hasPermission, List.any_eq_true, SortedSet.mem_toList, h]

theorem allowed_decideByRoles (t : RoleTable) (q : Request) :
    (Model.decideByRoles t q).allowed =
      (t.findGrant q.identity.tenant q.identity.roles.toList q.required).isSome := by
  unfold Model.decideByRoles
  split
  · next g hg => rw [hg, Decision.allowed_allow]; rfl
  · next hg => rw [hg, Decision.allowed_deny]; rfl

end RoleTable

/-- The providers look up roles, and derive permissions from the roles by the table. -/
structure Providers.Derive (p : Providers) (t : RoleTable) : Prop where
  roles : p.sources.roles = true
  permissions : p.sources.permissions = some .throughRoles
  table : p.table = .ok t

/-- All that the cache holds is what the providers answer. -/
def IdentityCache.Current (c : IdentityCache) (answer : Membership → Entitlements) : Prop :=
  ∀ m e, c.entries.get? m = some e → e.entitlements = answer m

/-- A resolved identity has the permissions of its roles. -/
theorem Providers.Derive.permissions_resolve {p : Providers} {cs : List RoleChange}
    (h : p.Derive (.after cs)) {cache cache' : Option IdentityCache}
    (hcache : ∀ c, cache = some c → c.Current (p.entitlementsOf (.after cs))) {now : Instant}
    {ended : Option Cancelled} {s : Subject} {ls ls' : Lines} {i : Identity}
    (hi : p.resolve now ended s cache ls = (.done (.ok i), cache', ls')) (x : Permission) :
    x ∈ i.permissions ↔ x ∈ (RoleTable.after cs).permissionsOf i.tenant i.roles.toList := by
  obtain ⟨app, e, -, rfl, hsource⟩ := resolve_source hi
  have he : e = p.entitlementsOf (.after cs) ⟨s.tenant, app, s.id⟩ := by
    rcases hsource with ⟨c, kept, hc, hkept, -, rfl⟩ | hasked
    · exact hcache c hc _ _ hkept
    · exact (answers_askAll h.table ended _).only _ _ _ hasked
  subst he
  simp only [Entitlements.identity, entitlementsOf, h.roles, h.permissions, if_true,
    SortedSet.mem_ofList, SortedSet.mem_toList, RoleTable.mem_permissionsOf]
  have hsame : ∀ r : Role, r.Reached cs s.tenant (p.directory.rolesOf ⟨s.tenant, app, s.id⟩) ↔
      r.Reached cs s.tenant
        (SortedSet.ofList (p.directory.rolesOf ⟨s.tenant, app, s.id⟩)).toList :=
    fun r => Role.reached_congr fun r₀ => by rw [SortedSet.mem_toList, SortedSet.mem_ofList]
  simp only [hsame]

/-- Over direct lines, the providers resolve every subject that names its application. -/
theorem Providers.resolve_direct {p : Providers} {table : RoleTable} (h : p.table = .ok table)
    (now : Instant) (ended : Option Cancelled) {s : Subject} {app : AppId} (happ : s.app? = some app) :
    p.resolve now ended s none .direct =
      (.done (.ok ((p.entitlementsOf table ⟨s.tenant, app, s.id⟩).identity s app)), none, .direct) := by
  have hasked := (answers_askAll h ended ⟨s.tenant, app, s.id⟩).direct
  unfold Providers.resolve
  simp only [happ, hasked]

/-- What a table answers after any history of changes, circles of inheritance included, and that
derived permissions and decisions by roles agree on every request. -/
theorem RoleTable.inheritance_decides (cs : List RoleChange) :
    (∀ tenant roles,
      (∀ r, r ∈ (after cs).reachable tenant roles ↔ r.Reached cs tenant roles) ∧
      (∀ p, p ∈ (after cs).permissionsOf tenant roles ↔
        ∃ r : Role, r.Reached cs tenant roles ∧ r.Granted cs tenant p) ∧
      ∀ required,
        (((after cs).findGrant tenant roles required).isSome = true ↔
          ∃ p ∈ (after cs).permissionsOf tenant roles, p.covers required = true) ∧
        ∀ g, (after cs).findGrant tenant roles required = some g ↔
          Leads cs tenant roles required g) ∧
    ∀ (rights : Rights) (now : Instant), rights.roles = .ok (after cs) →
      (∀ q, ∃ d, Model.roles.evaluate rights q now = .ok d ∧ (d.allowed = true ↔
        ∃ (r : Role) (p : Permission), r.Reached cs q.identity.tenant q.identity.roles.toList ∧
          r.Granted cs q.identity.tenant p ∧ p.covers q.required = true)) ∧
      ∀ (p : Providers), p.Derive (after cs) →
        ∀ cache, (∀ c, cache = some c → c.Current (p.entitlementsOf (after cs))) →
        ∀ time ended s ls i cache' ls',
          p.resolve time ended s cache ls = (.done (.ok i), cache', ls') →
        ∀ resource action context,
          ∃ d, Model.roles.evaluate rights ⟨i, resource, action, context⟩ now = .ok d ∧
            d.allowed = i.hasPermission (.forAction resource.type action) := by
  refine ⟨fun tenant roles => ⟨fun r => mem_reachable, fun p => mem_permissionsOf,
    fun required => ⟨findGrant_isSome, fun g => findGrant_eq_some⟩⟩, fun rights now hrights => ?_⟩
  have heval (q : Request) :
      Model.roles.evaluate rights q now = .ok (Model.decideByRoles (after cs) q) := by
    rw [Model.evaluate, hrights]
    rfl
  have hallowed (q : Request) : (Model.decideByRoles (after cs) q).allowed = true ↔
      ∃ p ∈ (after cs).permissionsOf q.identity.tenant q.identity.roles.toList,
        p.covers q.required = true := by
    rw [allowed_decideByRoles, findGrant_isSome]
  constructor
  · intro q
    refine ⟨_, heval q, ?_⟩
    simp only [hallowed, mem_permissionsOf]
    constructor
    · rintro ⟨p, ⟨r, hreached, hgranted⟩, hcovers⟩
      exact ⟨r, p, hreached, hgranted, hcovers⟩
    · rintro ⟨r, p, hreached, hgranted, hcovers⟩
      exact ⟨p, ⟨r, hreached, hgranted⟩, hcovers⟩
  · intro p hp cache hcache time ended s ls i cache' ls' hi resource action context
    refine ⟨_, heval _, ?_⟩
    rw [Bool.eq_iff_iff, hallowed, hasPermission_iff (hp.permissions_resolve hcache hi)]
    rfl

namespace Sample

/-- The two roles inherit from each other; the clerk may read documents. -/
def circle : List RoleChange :=
  [.inherit ⟨"acme"⟩ ⟨"manager"⟩ ⟨"clerk"⟩, .inherit ⟨"acme"⟩ ⟨"clerk"⟩ ⟨"manager"⟩,
    .grant ⟨"acme"⟩ ⟨"clerk"⟩ [⟨"documents:read"⟩]]

/-- Alice is a manager, and has the permissions of her roles. -/
def derived : Providers :=
  ⟨⟨true, some .throughRoles, false, false⟩, Directory.empty.assign member [⟨"manager"⟩],
    .ok (.after circle)⟩

end Sample

open Sample in
theorem RoleTable.circle_decides :
    ∃ i d, (derived.resolve ⟨0, 0⟩ none alice none .direct).1 = .done (.ok i) ∧
      Model.roles.evaluate { (default : Rights) with roles := .ok (after circle) }
        ⟨i, .new ⟨"acme"⟩ "documents", "read", .empty⟩ ⟨0, 0⟩ = .ok d ∧
      d.allowed = true ∧ i.hasPermission ⟨"documents:read"⟩ = true := by
  have happ : alice.app? = some ⟨"crm"⟩ := rfl
  have hi := Providers.resolve_direct (p := derived) rfl ⟨0, 0⟩ none happ
  obtain ⟨-, hdecides⟩ := inheritance_decides circle
  obtain ⟨hroles, hpermissions⟩ :=
    hdecides { (default : Rights) with roles := .ok (after circle) } ⟨0, 0⟩ rfl
  obtain ⟨d, hd, hsame⟩ := hpermissions derived ⟨rfl, rfl, rfl⟩ none (fun c hc => by cases hc)
    _ _ _ _ _ _ _ hi (.new ⟨"acme"⟩ "documents") "read" .empty
  obtain ⟨d', hd', hallowed⟩ := hroles ⟨_, .new ⟨"acme"⟩ "documents", "read", .empty⟩
  obtain rfl := Except.ok.inj (hd.symm.trans hd')
  have hyes : d.allowed = true := by
    have hclerk : (⟨"clerk"⟩ : Role).Reached circle ⟨"acme"⟩ [⟨"manager"⟩] :=
      ⟨⟨"manager"⟩, List.mem_singleton_self _, .single (by decide)⟩
    have hread : (⟨"clerk"⟩ : Role).Granted circle ⟨"acme"⟩ ⟨"documents:read"⟩ :=
      ⟨circle.take 2, _, [], rfl, List.mem_singleton_self _, List.not_mem_nil⟩
    exact hallowed.2 ⟨⟨"clerk"⟩, ⟨"documents:read"⟩, hclerk, hread, by decide⟩
  exact ⟨_, d, congrArg Prod.fst hi, hd, hyes, hsame ▸ hyes⟩

end AccessControl
