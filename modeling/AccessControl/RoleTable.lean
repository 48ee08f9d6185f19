import AccessControl.Id
import AccessControl.Order.SortedSet
import AccessControl.Permission

/-!
# Roles

Which permissions a role has in a tenant and which roles it inherits from. Inheritance is followed
to any depth and may run in circles: `RoleTable.reachable` visits each role once.
-/

namespace AccessControl

structure Role where
  name : String
  deriving DecidableEq, Repr

instance : Keyed Role where
  key r := [r.name]
  key_inj {a b} h := by cases a; cases b; simpa using h

structure RoleGrant where
  tenant : TenantId
  role : Role
  permission : Permission
  deriving DecidableEq, Repr

instance : Keyed RoleGrant where
  key g := [g.tenant.text, g.role.name, g.permission.text]
  key_inj {a b} h := by
    obtain ⟨⟨t⟩, ⟨r⟩, ⟨p⟩⟩ := a
    obtain ⟨⟨t'⟩, ⟨r'⟩, ⟨p'⟩⟩ := b
    simpa using h

structure RoleLink where
  tenant : TenantId
  role : Role
  parent : Role
  deriving DecidableEq, Repr

instance : Keyed RoleLink where
  key l := [l.tenant.text, l.role.name, l.parent.name]
  key_inj {a b} h := by
    obtain ⟨⟨t⟩, ⟨r⟩, ⟨p⟩⟩ := a
    obtain ⟨⟨t'⟩, ⟨r'⟩, ⟨p'⟩⟩ := b
    simpa using h

structure RoleTable where
  grants : SortedSet RoleGrant
  links : SortedSet RoleLink
  deriving DecidableEq

namespace RoleTable

def empty : RoleTable := ⟨.empty, .empty⟩

instance : Inhabited RoleTable := ⟨empty⟩

def grant (t : RoleTable) (tenant : TenantId) (role : Role) (ps : List Permission) : RoleTable :=
  { t with grants := t.grants.insertMany (ps.map fun p => ⟨tenant, role, p⟩) }

def granted (t : RoleTable) (tenant : TenantId) (role : Role) (p : Permission) : Bool :=
  decide ((⟨tenant, role, p⟩ : RoleGrant) ∈ t.grants)

def revoke (t : RoleTable) (tenant : TenantId) (role : Role) (p : Permission) : RoleTable :=
  { t with grants := t.grants.erase ⟨tenant, role, p⟩ }

def inherit (t : RoleTable) (tenant : TenantId) (role parent : Role) : RoleTable :=
  { t with links := t.links.insert ⟨tenant, role, parent⟩ }

def linksOf (t : RoleTable) (tenant : TenantId) : List RoleLink :=
  t.links.toList.filter (·.tenant = tenant)

/-- The roles that `r` inherits from directly. -/
def parentsOf (links : List RoleLink) (r : Role) : List Role :=
  (links.filter (·.role = r)).map (·.parent)

/-- The links of roles that were not seen. -/
def unseen (links : List RoleLink) (seen : List Role) : List RoleLink :=
  links.filter (·.role ∉ seen)

/-- Seeing a role takes its own links, one for each parent, off the unseen ones. -/
theorem length_unseen_cons (links : List RoleLink) {r : Role} {seen : List Role} (h : r ∉ seen) :
    (unseen links (r :: seen)).length + (parentsOf links r).length =
      (unseen links seen).length := by
  simp only [unseen, parentsOf, List.length_map]
  induction links with
  | nil => rfl
  | cons x xs ih =>
    simp only [List.filter_cons, List.mem_cons, not_or] at ih ⊢
    by_cases hx : x.role = r
    · simp [hx, h] at ih ⊢; omega
    · by_cases hs : x.role ∈ seen
      · simp [hx, hs] at ih ⊢; omega
      · simp [hx, hs] at ih ⊢; omega

/-- Adds to `seen` what is reachable from `pending` along `links`: a role that was not seen is
added, and its parents are visited next. -/
def visit (links : List RoleLink) : (pending seen : List Role) → List Role
  | [], seen => seen
  | r :: rest, seen =>
    if r ∈ seen then visit links rest seen
    else visit links (parentsOf links r ++ rest) (r :: seen)
termination_by pending seen => (unseen links seen).length + pending.length
decreasing_by
  · simp
  · next h =>
    have := length_unseen_cons links h
    simp only [List.length_append, List.length_cons]
    omega

/-- The given roles and all they inherit from. -/
def reachable (t : RoleTable) (tenant : TenantId) (roles : List Role) : SortedSet Role :=
  .ofList (visit (t.linksOf tenant) roles [])

/-- The grants of the given roles, inherited ones included, in order of role and permission. -/
def grantsOf (t : RoleTable) (tenant : TenantId) (roles : List Role) : List RoleGrant :=
  let reach := t.reachable tenant roles
  t.grants.toList.filter fun g => g.tenant = tenant && decide (g.role ∈ reach)

/-- The permissions that the given roles have, inherited ones included. -/
def permissionsOf (t : RoleTable) (tenant : TenantId) (roles : List Role) : SortedSet Permission :=
  .ofList ((t.grantsOf tenant roles).map (·.permission))

/-- The first grant, by role and then by permission, that covers what is required. -/
def findGrant (t : RoleTable) (tenant : TenantId) (roles : List Role) (required : Permission) :
    Option RoleGrant :=
  (t.grantsOf tenant roles).find? (·.permission.covers required)

end RoleTable

end AccessControl
