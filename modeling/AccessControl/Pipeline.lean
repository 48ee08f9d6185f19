import AccessControl.Model

/-!
# Pipelines

Checks that a request passes one after the other: the first denial or error ends the run, and without
any check a request is denied.
-/

namespace AccessControl

/-- A check of a request against the rights and the time. -/
def Stage : Type := Rights → Instant → Request → Except DecisionError Decision

namespace Stage

/-- The resource lies in the scope of the identity. -/
def tenantScope : Stage := fun _ _ q =>
  .ok ((q.outOfScope? "tenant_scope").getD (.allow "tenant_scope" "resource within identity scope"))

def anyRole (roles : List Role) : Stage := fun _ _ q =>
  .ok (match roles.find? q.identity.hasRole with
    | some r => .allow "require_any_role" ("holds role '" ++ r.name ++ "'")
    | none => .deny "require_any_role" .missingRole
        ("none of " ++ toString roles.length ++ " required roles held"))

/-- The identity itself holds a permission that covers this one. -/
def permission (p : Permission) : Stage := fun _ _ q =>
  .ok (if q.identity.hasPermission p then .allow "require_permission" ("holds '" ++ p.text ++ "'")
    else .deny "require_permission" .missingPermission ("missing '" ++ p.text ++ "'"))

def model (m : Model) : Stage := fun rights now q => m.decide rights q now

end Stage

abbrev Pipeline := List Stage

namespace Pipeline

/-- The run of the remaining stages after one that allowed with `last`. -/
def runAfter (rights : Rights) (now : Instant) (q : Request) (last : Decision) :
    Pipeline → Except DecisionError Decision
  | [] => .ok last
  | s :: rest => do
    let d ← s rights now q
    if d.allowed then runAfter rights now q d rest else return d

theorem runAfter_cons (rights : Rights) (now : Instant) (q : Request) (last : Decision) (s : Stage)
    (rest : Pipeline) :
    runAfter rights now q last (s :: rest) = match s rights now q with
      | .error e => .error e
      | .ok d => if d.allowed then runAfter rights now q d rest else .ok d := by
  rw [runAfter]
  cases s rights now q <;> rfl

/-- The decision of the last stage, or of the first that does not allow. -/
def run (p : Pipeline) (rights : Rights) (now : Instant) (q : Request) :
    Except DecisionError Decision :=
  runAfter rights now q (.deny "pipeline" .noMatchingRule "pipeline has no stages") p

def ofModel (m : Model) : Pipeline := [.tenantScope, .model m]

end Pipeline

end AccessControl
