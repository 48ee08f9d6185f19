import AccessControl.Identity.Cache
import AccessControl.Outage
import AccessControl.Outcome
import AccessControl.Request

/-!
# Resolving identities

What a subject is entitled to is asked of providers for roles, permissions, groups and profiles. All
are asked in this order before any is waited for, and the first that refuses ends the resolution:
no identity is ever built from part of the answers.
-/

namespace AccessControl

inductive Provider
  | role
  | permission
  | group
  | profile
  deriving DecidableEq, Repr

def Provider.name : Provider → String
  | .role => "role"
  | .permission => "permission"
  | .group => "group"
  | .profile => "profile"

inductive IdentityError
  | unusable (e : SubjectError)
  | unavailable (p : Provider) (reason : String)
  | cancelled (c : Cancelled)
  deriving DecidableEq, Repr

def IdentityError.message : IdentityError → String
  | .unusable e => e.message
  | .unavailable p reason =>
    "identity resolution failed in " ++ p.name ++ " provider: provider unavailable: " ++ reason
  | .cancelled c => c.message

def IdentityError.kind : IdentityError → String
  | .unusable e => e.kind
  | .unavailable _ _ => "ResolutionFailed"
  | .cancelled c => c.kind

/-- What a provider does when it is asked. -/
inductive Reply (α : Type)
  | answered (a : α)
  | refused (e : IdentityError)
  | waiting

def Reply.map {α β : Type} (f : α → β) : Reply α → Reply β
  | .answered a => .answered (f a)
  | .refused e => .refused e
  | .waiting => .waiting

/-- Providers asked over lines that may be disturbed. -/
def Consultation (α : Type) : Type := Lines → Reply α × Lines

namespace Consultation

variable {α β : Type}

def none (a : α) : Consultation α := fun ls => (.answered a, ls)

/-- One provider is asked, whose answer is `a` unless its line is disturbed. One that hangs is given
up if the request has ended. -/
def ask (p : Provider) (t : Target) (ended : Option Cancelled) (a : α) : Consultation α := fun ls =>
  let (fault, ls) := ls.call t
  match fault with
  | some .offline => (.refused (.unavailable p t.offlineText), ls)
  | some (.givenUp c) => (.refused (.cancelled c), ls)
  | some .hang => match race ended (.pending : Progress α) with
    | some (.error c) => (.refused (.cancelled c), ls)
    | _ => (.waiting, ls)
  | some .lie | Option.none => (.answered a, ls)

def map (f : α → β) (x : Consultation α) : Consultation β := fun ls => ((x ls).1.map f, (x ls).2)

/-- The answer is looked up further, which can be refused. -/
def through (f : α → Except IdentityError β) (x : Consultation α) : Consultation β := fun ls =>
  match x ls with
  | (.answered a, ls) => match f a with
    | .ok b => (.answered b, ls)
    | .error e => (.refused e, ls)
  | (.refused e, ls) => (.refused e, ls)
  | (.waiting, ls) => (.waiting, ls)

/-- Both are asked before one is waited for; a refusal ends the consultation at once. -/
def and (x : Consultation α) (y : Consultation β) : Consultation (α × β) := fun ls =>
  match x ls with
  | (.refused e, ls) => (.refused e, ls)
  | (.answered a, ls) => ((y ls).1.map (a, ·), (y ls).2)
  | (.waiting, ls) => match y ls with
    | (.refused e, ls) => (.refused e, ls)
    | (_, ls) => (.waiting, ls)

end Consultation

inductive PermissionSource
  | assigned
  | throughRoles
  deriving DecidableEq, Repr

structure Sources where
  roles : Bool
  permissions : Option PermissionSource
  groups : Bool
  profiles : Bool
  deriving DecidableEq, Repr

def Sources.none : Sources := ⟨false, .none, false, false⟩

/-- The providers, and what they look things up in; the role table may be out of reach. -/
structure Providers where
  sources : Sources
  directory : Directory
  table : Except DecisionError RoleTable

namespace Providers

def askRoles (p : Providers) (ended : Option Cancelled) (m : Membership) :
    Consultation (List Role) :=
  if p.sources.roles then .ask .role .roles ended (p.directory.rolesOf m) else .none []

/-- Permissions assigned directly, or those that the assigned roles have. The latter asks for the
roles over their own line. -/
def askPermissions (p : Providers) (ended : Option Cancelled) (m : Membership) :
    Consultation (List Permission) :=
  match p.sources.permissions with
  | none => .none []
  | some .assigned => .ask .permission .permissions ended (p.directory.permissionsOf m)
  | some .throughRoles =>
    (Consultation.ask .permission .roles ended (p.directory.rolesOf m)).through fun l =>
      match p.table with
      | .ok t => .ok (t.permissionsOf m.tenant l).toList
      | .error e => .error (.unavailable .permission e.message)

def askGroups (p : Providers) (ended : Option Cancelled) (a : Account) :
    Consultation (List String) :=
  if p.sources.groups then .ask .group .groups ended (p.directory.groupsOf a) else .none []

def askProfile (p : Providers) (ended : Option Cancelled) (a : Account) :
    Consultation (SortedMap String Json) :=
  if p.sources.profiles then .ask .profile .profiles ended (p.directory.profileOf a)
  else .none .empty

def askAll (p : Providers) (ended : Option Cancelled) (m : Membership) :
    Consultation Entitlements :=
  let a : Account := ⟨m.tenant, m.subject⟩
  (((p.askRoles ended m).and (p.askPermissions ended m)).and
    ((p.askGroups ended a).and (p.askProfile ended a))).map
    fun ((roles, permissions), (groups, profile)) =>
      ⟨.ofList roles, .ofList permissions, .ofList groups, profile⟩

/-- What undisturbed providers answer, with this role table. -/
def entitlementsOf (p : Providers) (table : RoleTable) (m : Membership) : Entitlements where
  roles := .ofList (if p.sources.roles then p.directory.rolesOf m else [])
  permissions := .ofList <| match p.sources.permissions with
    | none => []
    | some .assigned => p.directory.permissionsOf m
    | some .throughRoles => (table.permissionsOf m.tenant (p.directory.rolesOf m)).toList
  groups := .ofList (if p.sources.groups then p.directory.groupsOf ⟨m.tenant, m.subject⟩ else [])
  profile := if p.sources.profiles then p.directory.profileOf ⟨m.tenant, m.subject⟩ else .empty

/-- The identity of a subject: from the cache if it has a good entry, else from the providers, and
kept in the cache then. -/
def resolve (p : Providers) (now : Instant) (ended : Option Cancelled) (s : Subject)
    (cache : Option IdentityCache) (ls : Lines) :
    Outcome (Except IdentityError Identity) × Option IdentityCache × Lines :=
  match s.app? with
  | none => (.done (.error (.unusable .missingApp)), cache, ls)
  | some app =>
    let (hit, cache) : Option Identity × Option IdentityCache := match cache with
      | none => (none, none)
      | some c => ((c.get app s now).1, some (c.get app s now).2)
    match hit with
    | some i => (.done (.ok i), cache, ls)
    | none => match p.askAll ended ⟨s.tenant, app, s.id⟩ ls with
      | (.refused e, ls) => (.done (.error e), cache, ls)
      | (.waiting, ls) => (.stuck, cache, ls)
      | (.answered e, ls) =>
        let i := e.identity s app
        match cache with
        | none => (.done (.ok i), none, ls)
        | some c => match c.insert? i now with
          | some c => (.done (.ok i), some c, ls)
          | none => (.aborted, some c, ls)

end Providers

end AccessControl
