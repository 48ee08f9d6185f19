import AccessControl.Cancellation

/-!
# Planned outages

Collaborators can be told to misbehave for some of their calls, to rehearse how the rest copes.
Each has a line that counts its calls and holds the plan that is in force: the first `skip` calls
behave, the next `count` do not, later ones behave again.
-/

namespace AccessControl

inductive Fault
  /-- It reports that the collaborator is offline. -/
  | offline
  /-- It reports that it was given up. -/
  | givenUp (c : Cancelled)
  /-- It never comes back. -/
  | hang
  /-- It denies what it should look up. -/
  | lie
  deriving DecidableEq, Repr

/-- Whom a call goes to: a provider of entitlements, the revocation list or the token store. -/
inductive Target
  | roles
  | permissions
  | groups
  | profiles
  | revocationAdd
  | revocationLookup
  | revocationCleanup
  | storeInsert
  | storeFind
  | storeDelete
  | storeList
  | storeRevoke
  | storeCleanup
  deriving DecidableEq, Repr

namespace Target

def name : Target → String
  | .roles => "roles"
  | .permissions => "permissions"
  | .groups => "groups"
  | .profiles => "profiles"
  | .revocationAdd => "rev.add"
  | .revocationLookup => "rev.is_revoked"
  | .revocationCleanup => "rev.cleanup"
  | .storeInsert => "store.store"
  | .storeFind => "store.get"
  | .storeDelete => "store.delete"
  | .storeList => "store.list"
  | .storeRevoke => "store.revoke"
  | .storeCleanup => "store.cleanup"

def ofStore : List Target :=
  [storeInsert, storeFind, storeDelete, storeList, storeRevoke, storeCleanup]

def all : List Target :=
  [roles, permissions, groups, profiles, revocationAdd, revocationLookup, revocationCleanup] ++
    ofStore

def ofName? (s : String) : Option Target := all.find? (·.name = s)

/-- What is reported of a collaborator that is offline. -/
def offlineText (t : Target) : String := t.name ++ " offline"

end Target

/-- Which of the coming calls misbehave; without a count all that follow the skipped ones do. -/
structure Plan where
  fault : Fault
  skip : Nat
  count : Option Nat
  deriving DecidableEq, Repr

/-- What the next call does, and the plan for those after it. -/
def Plan.next (p : Plan) : Option Fault × Plan :=
  match p.skip, p.count with
  | n + 1, _ => (none, { p with skip := n })
  | 0, none => (some p.fault, p)
  | 0, some 0 => (none, p)
  | 0, some (n + 1) => (some p.fault, { p with count := some n })

/-- The calls so far, and the plan in force. -/
structure Line where
  calls : Nat
  plan : Option Plan
  deriving DecidableEq, Repr

def Line.call (l : Line) : Option Fault × Line :=
  match l.plan with
  | none => (none, { l with calls := l.calls + 1 })
  | some p => (p.next.1, ⟨l.calls + 1, some p.next.2⟩)

/-- The lines to all collaborators; calls to one without a line are neither counted nor disturbed. -/
def Lines : Type := Target → Option Line

namespace Lines

def direct : Lines := fun _ => none

/-- Lines to these collaborators, without plans. -/
def of (l : List Target) : Lines := fun t => if t ∈ l then some ⟨0, none⟩ else none

instance : Inhabited Lines := ⟨direct⟩

def set (ls : Lines) (t : Target) (l : Line) : Lines := fun t' => if t' = t then some l else ls t'

/-- Puts a plan into force, or ends the one that is. -/
def plan (ls : Lines) (t : Target) (p : Option Plan) : Lines :=
  match ls t with
  | none => ls
  | some l => ls.set t { l with plan := p }

def call (ls : Lines) (t : Target) : Option Fault × Lines :=
  match ls t with
  | none => (none, ls)
  | some l => (l.call.1, ls.set t l.call.2)

def counts (ls : Lines) : List (Target × Nat) :=
  Target.all.filterMap fun t => match ls t with
    | some l => if l.calls = 0 then none else some (t, l.calls)
    | none => none

end Lines

end AccessControl
