import AccessControl.Identity.Resolution
import AccessControl.Proofs.Tenant.Share

/-!
# The shares of a tenant in directory and cache

An identity is resolved from the tenant's shares of the directory, the role table and the cache, over
the lines of the providers (`Providers.resolve_share`).
-/

namespace AccessControl

/-! ### Lines that are not used -/

namespace Lines

variable {ls : Lines} {t : Target} {l : List Target}

def without (ls : Lines) (l : List Target) : Lines := fun t => if t ∈ l then none else ls t

theorem set_without_of_mem (h : t ∈ l) (x : Line) : (ls.set t x).without l = ls.without l := by
  funext t'
  unfold without set
  by_cases ht : t' = t
  · rw [ht, if_pos h, if_pos h]
  · rw [if_neg ht]

theorem set_without (h : t ∉ l) (x : Line) : (ls.set t x).without l = (ls.without l).set t x := by
  funext t'
  unfold without set
  by_cases ht : t' = t
  · rw [if_pos ht, if_pos ht, ht, if_neg h]
  · rw [if_neg ht, if_neg ht]

/-- A call to one of them makes no difference to the others. -/
theorem call_without_of_mem (h : t ∈ l) : (ls.call t).2.without l = ls.without l := by
  unfold call
  cases ls t with
  | none => rfl
  | some x => exact set_without_of_mem h _

/-- A call to another goes as it would with all lines. -/
theorem call_without (h : t ∉ l) :
    (ls.without l).call t = ((ls.call t).1, (ls.call t).2.without l) := by
  have ht : ls.without l t = ls t := if_neg h
  unfold call
  rw [ht]
  cases ls t with
  | none => rfl
  | some x => exact congrArg (Prod.mk _) (set_without h _).symm

end Lines

namespace Consultation

variable {α β : Type} {x : Consultation α} {y : Consultation β} {l : List Target}

/-- The consultation uses none of the lines to some. -/
def Spares (x : Consultation α) (l : List Target) : Prop :=
  ∀ ls, x (ls.without l) = ((x ls).1, (x ls).2.without l)

theorem spares_none (a : α) : (none a).Spares l := fun _ => rfl

theorem spares_ask {t : Target} (h : t ∉ l) (p : Provider) (ended : Option Cancelled) (a : α) :
    (ask p t ended a).Spares l := by
  intro ls
  unfold ask
  rw [Lines.call_without h]
  simp only
  split
  · rfl
  · rfl
  · split <;> rfl
  · rfl
  · rfl

theorem Spares.map (h : x.Spares l) (f : α → β) : (x.map f).Spares l := by
  intro ls
  unfold Consultation.map
  rw [h ls]

theorem Spares.through (h : x.Spares l) (f : α → Except IdentityError β) :
    (x.through f).Spares l := by
  intro ls
  unfold Consultation.through
  rw [h ls]
  rcases x ls with ⟨a | e | _, ls'⟩
  · simp only
    cases f a <;> rfl
  · rfl
  · rfl

theorem Spares.and (h : x.Spares l) (h' : y.Spares l) : (x.and y).Spares l := by
  intro ls
  unfold Consultation.and
  rw [h ls]
  rcases x ls with ⟨a | e | _, ls'⟩
  · simp only [h' ls']
  · rfl
  · simp only [h' ls']
    rcases y ls' with ⟨b | e | _, ls''⟩ <;> rfl

end Consultation

/-! ### Directories -/

namespace Directory

variable {d : Directory} {tenant : TenantId} {m : Membership} {a : Account}

def share (d : Directory) (tenant : TenantId) : Directory where
  roles := d.roles.filter fun m _ => m.tenant = tenant
  permissions := d.permissions.filter fun m _ => m.tenant = tenant
  groups := d.groups.filter fun a _ => a.tenant = tenant
  profiles := d.profiles.filter fun a _ => a.tenant = tenant

theorem share_assign (h : m.tenant ≠ tenant) (l : List Role) :
    (d.assign m l).share tenant = d.share tenant := by
  have hroles : (d.roles.insert m (addMissing (d.rolesOf m) l)).filter
      (fun m _ => m.tenant = tenant) = d.roles.filter fun m _ => m.tenant = tenant :=
    SortedMap.filter_insert fun _ => decide_eq_false h
  unfold share assign
  rw [hroles]

theorem share_grant (h : m.tenant ≠ tenant) (l : List Permission) :
    (d.grant m l).share tenant = d.share tenant := by
  have hpermissions : (d.permissions.insert m (d.permissionsOf m ++ l)).filter
      (fun m _ => m.tenant = tenant) = d.permissions.filter fun m _ => m.tenant = tenant :=
    SortedMap.filter_insert fun _ => decide_eq_false h
  unfold share grant
  rw [hpermissions]

theorem share_join (h : a.tenant ≠ tenant) (l : List String) :
    (d.join a l).share tenant = d.share tenant := by
  have hgroups : (d.groups.insert a (d.groupsOf a ++ l)).filter
      (fun a _ => a.tenant = tenant) = d.groups.filter fun a _ => a.tenant = tenant :=
    SortedMap.filter_insert fun _ => decide_eq_false h
  unfold share join
  rw [hgroups]

theorem share_setProfile (h : a.tenant ≠ tenant) (p : SortedMap String Json) :
    (d.setProfile a p).share tenant = d.share tenant := by
  have hprofiles : (d.profiles.insert a p).filter
      (fun a _ => a.tenant = tenant) = d.profiles.filter fun a _ => a.tenant = tenant :=
    SortedMap.filter_insert fun _ => decide_eq_false h
  unfold share setProfile
  rw [hprofiles]

theorem rolesOf_share (h : m.tenant = tenant) : (d.share tenant).rolesOf m = d.rolesOf m := by
  have hget : (d.share tenant).roles.get? m = d.roles.get? m :=
    SortedMap.get?_filter_of_pos fun _ => decide_eq_true h
  rw [rolesOf, hget, rolesOf]

theorem permissionsOf_share (h : m.tenant = tenant) :
    (d.share tenant).permissionsOf m = d.permissionsOf m := by
  have hget : (d.share tenant).permissions.get? m = d.permissions.get? m :=
    SortedMap.get?_filter_of_pos fun _ => decide_eq_true h
  rw [permissionsOf, hget, permissionsOf]

theorem groupsOf_share (h : a.tenant = tenant) : (d.share tenant).groupsOf a = d.groupsOf a := by
  have hget : (d.share tenant).groups.get? a = d.groups.get? a :=
    SortedMap.get?_filter_of_pos fun _ => decide_eq_true h
  rw [groupsOf, hget, groupsOf]

theorem profileOf_share (h : a.tenant = tenant) :
    (d.share tenant).profileOf a = d.profileOf a := by
  have hget : (d.share tenant).profiles.get? a = d.profiles.get? a :=
    SortedMap.get?_filter_of_pos fun _ => decide_eq_true h
  rw [profileOf, hget, profileOf]

end Directory

/-! ### Cached identities -/

namespace IdentityCache

variable {c c' : IdentityCache} {tenant : TenantId}

def share (c : IdentityCache) (tenant : TenantId) : IdentityCache :=
  c.filter fun m _ => m.tenant = tenant

@[simp] theorem lifetime_share : (c.share tenant).lifetime = c.lifetime := rfl

theorem share_insert {i : Identity} {now : Instant} (h : i.tenant ≠ tenant)
    (hc : c.insert? i now = some c') : c'.share tenant = c.share tenant := by
  obtain ⟨t, -, rfl⟩ := Option.map_eq_some_iff.1 hc
  have hentries : (c.entries.insert ⟨i.tenant, i.app, i.subject.id⟩ ⟨i.entitlements, t⟩).filter
      (fun m _ => m.tenant = tenant) = c.entries.filter fun m _ => m.tenant = tenant :=
    SortedMap.filter_insert fun _ => decide_eq_false h
  unfold share filter
  rw [hentries]

theorem share_invalidate {tenant' : TenantId} (h : tenant' ≠ tenant) (subject : SubjectId) :
    (c.invalidate tenant' subject).share tenant = c.share tenant := by
  unfold share invalidate filter
  rw [SortedMap.filter_filter_of_imp]
  intro m _ hm
  have hne : m.tenant ≠ tenant' := fun he => h (he.symm.trans (of_decide_eq_true hm))
  simp [hne]

theorem get_share {s : Subject} (h : s.tenant = tenant) (app : AppId) (now : Instant) :
    ((c.share tenant).get app s now).1 = (c.get app s now).1 := by
  have hentry : (c.share tenant).entries.get? ⟨s.tenant, app, s.id⟩ =
      c.entries.get? ⟨s.tenant, app, s.id⟩ :=
    SortedMap.get?_filter_of_pos fun _ => decide_eq_true h
  unfold get
  simp only [hentry]
  split
  · rfl
  · split <;> rfl

end IdentityCache

/-! ### Resolution -/

namespace Providers

variable {p : Providers} {tenant : TenantId}

def share (p : Providers) (tenant : TenantId) : Providers :=
  ⟨p.sources, p.directory.share tenant, p.table.map (·.share tenant)⟩

def targets : List Target := [.roles, .permissions, .groups, .profiles]

/-- Providers asked for a member of the tenant look into the tenant's shares. -/
theorem askAll_share {m : Membership} (h : m.tenant = tenant) (ended : Option Cancelled) :
    (p.share tenant).askAll ended m = p.askAll ended m := by
  have hpermissions : (p.share tenant).askPermissions ended m = p.askPermissions ended m := by
    unfold askPermissions
    simp only [share, Directory.permissionsOf_share h, Directory.rolesOf_share h]
    subst h
    cases p.table with
    | error e => rfl
    | ok t => simp only [Except.map, RoleTable.permissionsOf_share]
  unfold askAll
  rw [hpermissions]
  unfold askRoles askGroups askProfile
  simp only [share, Directory.rolesOf_share h]
  rw [Directory.groupsOf_share h, Directory.profileOf_share h]
  rfl

theorem askAll_spares (m : Membership) (ended : Option Cancelled) {l : List Target}
    (hl : ∀ t ∈ targets, t ∉ l) : (p.askAll ended m).Spares l := by
  have hask : ∀ {α : Type} (q : Provider) (t : Target) (a : α), t ∈ targets →
      (Consultation.ask q t ended a).Spares l :=
    fun q t a ht => Consultation.spares_ask (hl t ht) q ended a
  have hroles : (p.askRoles ended m).Spares l := by
    unfold askRoles
    split
    · exact hask _ _ _ (by decide)
    · exact Consultation.spares_none _
  have hpermissions : (p.askPermissions ended m).Spares l := by
    unfold askPermissions
    split
    · exact Consultation.spares_none _
    · exact hask _ _ _ (by decide)
    · exact (hask _ _ _ (by decide)).through _
  have hgroups : ∀ a, (p.askGroups ended a).Spares l := by
    intro a
    unfold askGroups
    split
    · exact hask _ _ _ (by decide)
    · exact Consultation.spares_none _
  have hprofile : ∀ a, (p.askProfile ended a).Spares l := by
    intro a
    unfold askProfile
    split
    · exact hask _ _ _ (by decide)
    · exact Consultation.spares_none _
  exact ((hroles.and hpermissions).and ((hgroups _).and (hprofile _))).map _

theorem resolve_share {s : Subject} (h : s.tenant = tenant) (now : Instant)
    (ended : Option Cancelled) (cache : Option IdentityCache) (ls : Lines) {l : List Target}
    (hl : ∀ t ∈ targets, t ∉ l) :
    ((p.share tenant).resolve now ended s (cache.map (·.share tenant)) (ls.without l)).1 =
      (p.resolve now ended s cache ls).1 := by
  unfold resolve
  cases s.app? with
  | none => rfl
  | some app =>
    have hasked : (p.share tenant).askAll ended ⟨s.tenant, app, s.id⟩ (ls.without l) =
        ((p.askAll ended ⟨s.tenant, app, s.id⟩ ls).1,
          (p.askAll ended ⟨s.tenant, app, s.id⟩ ls).2.without l) := by
      rw [askAll_share (m := ⟨s.tenant, app, s.id⟩) h]
      exact askAll_spares _ _ hl ls
    cases cache with
    | none =>
      simp only [Option.map_none, hasked]
      rcases p.askAll ended ⟨s.tenant, app, s.id⟩ ls with ⟨e | e | _, ls'⟩ <;> rfl
    | some c =>
      simp only [Option.map_some, IdentityCache.get_share h]
      cases (c.get app s now).1 with
      | some i => rfl
      | none =>
        simp only [hasked]
        rcases p.askAll ended ⟨s.tenant, app, s.id⟩ ls with ⟨e | e | _, ls'⟩
        · simp only [IdentityCache.insert?, IdentityCache.lifetime_get, IdentityCache.lifetime_share]
          cases now.addMillis? c.lifetime <;> rfl
        · rfl
        · rfl

end Providers

end AccessControl
