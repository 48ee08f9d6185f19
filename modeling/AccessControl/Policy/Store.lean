import AccessControl.Outcome
import AccessControl.Policy.Basic

/-!
# The policy store

The policies of all tenants in the order of their last insertion. A policy takes the place of the one
with the same id in its tenant and moves to the end; one that is refused leaves the store as it was.
-/

namespace AccessControl

/-- A policy with its patterns read, and the number of its insertion. -/
structure StoredPolicy where
  policy : Policy
  subjects : List Glob
  resources : List Glob
  actions : List Glob
  number : Nat

namespace StoredPolicy

def readPatterns (id field : String) (patterns : List String) : Except PolicyFault (List Glob) :=
  if patterns.isEmpty then .error (.noPatterns id field)
  else patterns.mapM fun p => match Glob.parse p with
    | .ok g => .ok g
    | .error e => .error (.badPattern id field p e)

def ofPolicy (p : Policy) (number : Nat) : Except PolicyFault StoredPolicy := do
  if Text.isBlank p.id then throw .emptyId
  let subjects ← readPatterns p.id "subject" p.subjects
  let resources ← readPatterns p.id "resource" p.resources
  let actions ← readPatterns p.id "action" p.actions
  return { policy := p, subjects, resources, actions, number }

theorem policy_of_ofPolicy {p : Policy} {number : Nat} {s : StoredPolicy}
    (h : ofPolicy p number = .ok s) : s.policy = p := by
  unfold ofPolicy at h
  by_cases hblank : Text.isBlank p.id
  · rw [if_pos hblank] at h
    cases h
  · rw [if_neg hblank] at h
    obtain ⟨-, -, h⟩ := Except.bind_eq_ok.1 h
    obtain ⟨subjects, -, h⟩ := Except.bind_eq_ok.1 h
    obtain ⟨resources, -, h⟩ := Except.bind_eq_ok.1 h
    obtain ⟨actions, -, h⟩ := Except.bind_eq_ok.1 h
    exact congrArg StoredPolicy.policy (Except.ok.inj h).symm

def anyMatches (globs : List Glob) (names : List String) : Bool :=
  names.any fun s => globs.any (·.matches? s)

def applies (s : StoredPolicy) (q : Request) : Bool :=
  (match s.policy.app with
    | none => true
    | some a => a = q.identity.app) &&
  anyMatches s.subjects q.subjectNames && anyMatches s.resources q.resourceNames &&
  anyMatches s.actions [q.action] && Policy.conditionsHold q s.policy.conditions

end StoredPolicy

structure PolicyStore where
  entries : List StoredPolicy
  inserted : Nat

namespace PolicyStore

def empty : PolicyStore := ⟨[], 0⟩

instance : Inhabited PolicyStore := ⟨empty⟩

/-- The entry is the policy with this id in this tenant. -/
def isAt (tenant : TenantId) (id : String) (s : StoredPolicy) : Bool :=
  s.policy.tenant = tenant && s.policy.id == id

def insert (st : PolicyStore) (p : Policy) : Except PolicyFault PolicyStore := do
  let s ← StoredPolicy.ofPolicy p st.inserted
  return ⟨st.entries.filter (fun e => !isAt p.tenant p.id e) ++ [s], st.inserted + 1⟩

def contains (st : PolicyStore) (tenant : TenantId) (id : String) : Bool :=
  st.entries.any (isAt tenant id)

def remove (st : PolicyStore) (tenant : TenantId) (id : String) : PolicyStore :=
  { st with entries := st.entries.filter fun e => !isAt tenant id e }

def get? (st : PolicyStore) (tenant : TenantId) (id : String) : Option Policy :=
  (st.entries.find? (isAt tenant id)).map (·.policy)

def list (st : PolicyStore) (tenant : TenantId) : List Policy :=
  (st.entries.filter (·.policy.tenant = tenant)).map (·.policy)

/-- The policies of the identity's tenant that apply to the request. -/
def applicable (st : PolicyStore) (q : Request) : List StoredPolicy :=
  st.entries.filter fun s => s.policy.tenant = q.identity.tenant && s.applies q

end PolicyStore

namespace Combining

def model : String := "policy"

/-- The decision of one policy. -/
def decisionOf (a : Combining) (p : Policy) : Decision :=
  match p.effect with
  | .allow => .allow model ("policy '" ++ p.id ++ "' allows (" ++ a.name ++ ")")
  | .deny => .deny model .policyDenied ("policy '" ++ p.id ++ "' denies (" ++ a.name ++ ")")

/-- The first with an effect, or else the first of all. -/
def firstWith (e : Effect) (s : StoredPolicy) (l : List StoredPolicy) : Policy :=
  (((s :: l).find? (·.policy.effect = e)).getD s).policy

/-- `a` comes before `b`: by higher priority, then by earlier creation, then by earlier insertion. -/
def precedes (a b : StoredPolicy) : Bool :=
  b.policy.priority < a.policy.priority ||
    (a.policy.priority == b.policy.priority &&
      (a.policy.createdAt < b.policy.createdAt ||
        (a.policy.createdAt = b.policy.createdAt && a.number < b.number)))

/-- The one that comes before all others. -/
def leading (s : StoredPolicy) (l : List StoredPolicy) : Policy :=
  (l.foldl (fun best x => if precedes x best then x else best) s).policy

def combine (a : Combining) : List StoredPolicy → Decision
  | [] => .deny model .noMatchingPolicy "no policy matches"
  | s :: l => match a with
    | denyOverrides => decisionOf a (firstWith .deny s l)
    | permitOverrides => decisionOf a (firstWith .allow s l)
    | firstApplicable => decisionOf a (leading s l)
    | onlyOneApplicable =>
      if l.isEmpty then decisionOf a s.policy
      else .deny model .indeterminate (toString (l.length + 1) ++ " policies apply: " ++
        Text.joinStrings ", " ((s :: l).map (·.policy.id)))

end Combining

end AccessControl
