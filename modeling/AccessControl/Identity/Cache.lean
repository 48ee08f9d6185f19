import AccessControl.Directory

/-!
# Cached identities

What was resolved for a subject in one application of a tenant, kept for a fixed time. Claims are
not kept: a hit carries the subject that is asked about, and never a session.
-/

namespace AccessControl

structure Entitlements where
  roles : SortedSet Role
  permissions : SortedSet Permission
  groups : SortedSet String
  profile : SortedMap String Json
  deriving DecidableEq

def Entitlements.identity (e : Entitlements) (s : Subject) (app : AppId) : Identity :=
  { subject := s, tenant := s.tenant, app, roles := e.roles, permissions := e.permissions
    groups := e.groups, profile := e.profile, session := none }

def Identity.entitlements (i : Identity) : Entitlements :=
  ⟨i.roles, i.permissions, i.groups, i.profile⟩

structure CachedEntitlements where
  entitlements : Entitlements
  expiresAt : Instant
  deriving DecidableEq

structure IdentityCache where
  entries : SortedMap Membership CachedEntitlements
  /-- How long an entry is good for, in whole milliseconds. A lifetime that ends between two
  milliseconds is not represented. -/
  lifetime : Int
  deriving DecidableEq

namespace IdentityCache

def empty (lifetime : Int) : IdentityCache := ⟨.empty, lifetime⟩

/-- The identity of a subject in an application, if an entry is still good; one that is not is
dropped. -/
def get (c : IdentityCache) (app : AppId) (s : Subject) (now : Instant) :
    Option Identity × IdentityCache :=
  let m : Membership := ⟨s.tenant, app, s.id⟩
  match c.entries.get? m with
  | none => (none, c)
  | some e =>
    if now < e.expiresAt then (some (e.entitlements.identity s app), c)
    else (none, { c with entries := c.entries.erase m })

@[simp] theorem lifetime_get (c : IdentityCache) (app : AppId) (s : Subject) (now : Instant) :
    (c.get app s now).2.lifetime = c.lifetime := by
  unfold get
  simp only
  split
  · rfl
  · split <;> rfl

/-- A hit is the identity of the subject that is asked about, with what an entry holds that is still
good. -/
theorem get_hit {c : IdentityCache} {app : AppId} {s : Subject} {now : Instant} {i : Identity}
    (h : (c.get app s now).1 = some i) :
    ∃ e, c.entries.get? ⟨s.tenant, app, s.id⟩ = some e ∧ now < e.expiresAt ∧
      i = e.entitlements.identity s app := by
  unfold get at h
  simp only at h
  split at h
  · cases h
  next e he =>
    split at h
    next hgood => exact ⟨e, he, hgood, (Option.some.inj h).symm⟩
    · cases h

theorem get?_get {c : IdentityCache} {app : AppId} {s : Subject} {now : Instant} {m : Membership}
    {e : CachedEntitlements} (h : (c.get app s now).2.entries.get? m = some e) :
    c.entries.get? m = some e := by
  unfold get at h
  simp only at h
  split at h
  · exact h
  · split at h
    · exact h
    · rw [SortedMap.get?_erase] at h
      split at h
      · cases h
      · exact h

/-- Keeps what an identity is entitled to, if the end of its time is representable. -/
def insert? (c : IdentityCache) (i : Identity) (now : Instant) : Option IdentityCache :=
  (now.addMillis? c.lifetime).map fun t =>
    { c with entries := c.entries.insert ⟨i.tenant, i.app, i.subject.id⟩ ⟨i.entitlements, t⟩ }

def filter (p : Membership → CachedEntitlements → Bool) (c : IdentityCache) : IdentityCache :=
  { c with entries := c.entries.filter p }

def invalidate (c : IdentityCache) (tenant : TenantId) (subject : SubjectId) : IdentityCache :=
  c.filter fun m _ => !(m.tenant = tenant && m.subject = subject)

/-- Drops the entries that are no longer good. -/
def purge (c : IdentityCache) (now : Instant) : IdentityCache :=
  c.filter fun _ e => now < e.expiresAt

def clear (c : IdentityCache) : IdentityCache := { c with entries := .empty }

def size (c : IdentityCache) : Nat := c.entries.size

end IdentityCache

end AccessControl
