import AccessControl.Identity.Resolution
import AccessControl.Model
import AccessControl.Token.Backend

/-!
# Deployments

All that one deployment keeps: the token backend with its clock, the lines to collaborators, the
directory, the cache of identities and the stores of the authorization models.
-/

namespace AccessControl

structure Deployment where
  backend : Backend
  lines : Lines
  directory : Directory
  cache : Option IdentityCache
  rights : Rights

namespace Deployment

def new (clock : Instant) (supply : Supply) (lines : Lines) (cache : Option IdentityCache) :
    Deployment :=
  ⟨.new clock supply, lines, .empty, cache, default⟩

def clock (d : Deployment) : Instant := d.backend.clock

def setClock (d : Deployment) (t : Instant) : Deployment :=
  { d with backend := { d.backend with clock := t } }

def withDirectory (d : Deployment) (f : Directory → Directory) : Deployment :=
  { d with directory := f d.directory }

def withRoles (d : Deployment) (f : RoleTable → RoleTable) : Deployment :=
  { d with rights := { d.rights with roles := d.rights.roles.map f } }

def withAccessList (d : Deployment) (f : AccessList → AccessList) : Deployment :=
  { d with rights := { d.rights with accessList := d.rights.accessList.map f } }

def withPolicies (d : Deployment) (f : PolicyStore → PolicyStore) : Deployment :=
  { d with rights := { d.rights with policies := d.rights.policies.map f } }

/-- Runs a token procedure for a request that may have ended. -/
def run {α : Type} (d : Deployment) (ended : Option Cancelled) (p : Procedure α) :
    Outcome α × Deployment :=
  let (x, backend, lines) := p.run (Backend.respond ended) (d.backend, d.lines)
  (x, { d with backend, lines })

def providers (d : Deployment) (sources : Sources) : Providers :=
  ⟨sources, d.directory, d.rights.roles⟩

def identify (d : Deployment) (sources : Sources) (ended : Option Cancelled) (s : Subject) :
    Outcome (Except IdentityError Identity) × Deployment :=
  let (x, cache, lines) := (d.providers sources).resolve d.clock ended s d.cache d.lines
  (x, { d with cache, lines })

end Deployment

end AccessControl
