import AccessControl.Identity

/-!
# Directories

Who has which entitlements: roles and permissions in one application of a tenant, groups and a
profile throughout the tenant.
-/

namespace AccessControl

structure Membership where
  tenant : TenantId
  app : AppId
  subject : SubjectId
  deriving DecidableEq, Repr

instance : Keyed Membership where
  key m := [m.tenant.text, m.app.text, m.subject.text]
  key_inj {a b} h := by
    obtain ⟨⟨t⟩, ⟨p⟩, ⟨s⟩⟩ := a
    obtain ⟨⟨t'⟩, ⟨p'⟩, ⟨s'⟩⟩ := b
    simpa using h

structure Account where
  tenant : TenantId
  subject : SubjectId
  deriving DecidableEq, Repr

instance : Keyed Account where
  key a := [a.tenant.text, a.subject.text]
  key_inj {a b} h := by
    obtain ⟨⟨t⟩, ⟨s⟩⟩ := a
    obtain ⟨⟨t'⟩, ⟨s'⟩⟩ := b
    simpa using h

structure Directory where
  roles : SortedMap Membership (List Role)
  permissions : SortedMap Membership (List Permission)
  groups : SortedMap Account (List String)
  profiles : SortedMap Account (SortedMap String Json)

namespace Directory

def empty : Directory := ⟨.empty, .empty, .empty, .empty⟩

instance : Inhabited Directory := ⟨empty⟩

def rolesOf (d : Directory) (m : Membership) : List Role := (d.roles.get? m).getD []

def permissionsOf (d : Directory) (m : Membership) : List Permission :=
  (d.permissions.get? m).getD []

def groupsOf (d : Directory) (a : Account) : List String := (d.groups.get? a).getD []

def profileOf (d : Directory) (a : Account) : SortedMap String Json :=
  (d.profiles.get? a).getD .empty

/-- The roles at the end of a list, each unless it is there already. -/
def addMissing (held : List Role) (l : List Role) : List Role :=
  l.foldl (fun l r => if r ∈ l then l else l ++ [r]) held

/-- Gives roles to a member, each once and in order of giving. -/
def assign (d : Directory) (m : Membership) (l : List Role) : Directory :=
  { d with roles := d.roles.insert m (addMissing (d.rolesOf m) l) }

def grant (d : Directory) (m : Membership) (l : List Permission) : Directory :=
  { d with permissions := d.permissions.insert m (d.permissionsOf m ++ l) }

def join (d : Directory) (a : Account) (l : List String) : Directory :=
  { d with groups := d.groups.insert a (d.groupsOf a ++ l) }

def setProfile (d : Directory) (a : Account) (p : SortedMap String Json) : Directory :=
  { d with profiles := d.profiles.insert a p }

end Directory

end AccessControl
