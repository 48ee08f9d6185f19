import AccessControl.Deployment
import AccessControl.Proofs.Identity.Consultation
import Mathlib.Data.List.Induction

/-!
# How old an identity may be

The providers and the cache are changed and asked in any order, while the clock goes on. A resolved
identity holds what the providers answered all together at one moment: now, or less than the lifetime
of the cache ago, and then nothing has dropped it since (`Deployment.identify_fresh`). The moments are
the prefixes of the list of steps, and every entry of the cache is traced to one
(`Deployment.cache_after`).
-/

namespace AccessControl

namespace Consultation

variable {α β : Type} {x : Consultation α} {y : Consultation β} {a : α} {b : β}

/-- The answer is `a` over direct lines, and over other lines there is no different one. -/
structure Answers (x : Consultation α) (a : α) : Prop where
  direct : x .direct = (.answered a, .direct)
  only : ∀ ls b ls', x ls = (.answered b, ls') → b = a

theorem answers_none (a : α) : (none a).Answers a := by
  refine ⟨rfl, fun ls b ls' h => ?_⟩
  cases h
  rfl

theorem answers_ask (p : Provider) (t : Target) (ended : Option Cancelled) (a : α) :
    (ask p t ended a).Answers a := by
  refine ⟨rfl, fun ls b ls' h => ?_⟩
  simp only [ask] at h
  split at h
  · cases h
  · cases h
  · split at h <;> cases h
  · cases h
    rfl
  · cases h
    rfl

theorem answers_ask_if (c : Bool) (p : Provider) (t : Target) (ended : Option Cancelled) (a b : α) :
    (if c then ask p t ended a else none b).Answers (if c then a else b) := by
  cases c with
  | false => exact answers_none b
  | true => exact answers_ask p t ended a

theorem Answers.map (h : x.Answers a) (f : α → β) : (x.map f).Answers (f a) := by
  refine ⟨map_answered.2 ⟨a, h.direct, rfl⟩, fun ls b ls' hx => ?_⟩
  obtain ⟨a', ha', rfl⟩ := map_answered.1 hx
  rw [h.only _ _ _ ha']

theorem Answers.through (h : x.Answers a) {f : α → Except IdentityError β} (hf : f a = .ok b) :
    (x.through f).Answers b := by
  refine ⟨through_answered.2 ⟨a, h.direct, hf⟩, fun ls b' ls' hx => ?_⟩
  obtain ⟨a', ha', hb'⟩ := through_answered.1 hx
  rw [h.only _ _ _ ha', hf] at hb'
  exact (Except.ok.inj hb').symm

theorem Answers.and (h : x.Answers a) (h' : y.Answers b) : (x.and y).Answers (a, b) := by
  refine ⟨and_answered.2 ⟨.direct, h.direct, h'.direct⟩, ?_⟩
  rintro ls ⟨a', b'⟩ ls' hxy
  obtain ⟨ls₁, ha', hb'⟩ := and_answered.1 hxy
  rw [h.only _ _ _ ha', h'.only _ _ _ hb']

end Consultation

namespace Providers

variable {p : Providers} {table : RoleTable}

theorem answers_askPermissions (h : p.table = .ok table) (ended : Option Cancelled)
    (m : Membership) :
    (p.askPermissions ended m).Answers (match p.sources.permissions with
      | none => []
      | some .assigned => p.directory.permissionsOf m
      | some .throughRoles => (table.permissionsOf m.tenant (p.directory.rolesOf m)).toList) := by
  unfold askPermissions
  cases p.sources.permissions with
  | none => exact Consultation.answers_none _
  | some source =>
    cases source with
    | assigned => exact Consultation.answers_ask _ _ _ _
    | throughRoles => exact (Consultation.answers_ask _ _ _ _).through (by rw [h])

/-- All providers together answer with the entitlements of the member. -/
theorem answers_askAll (h : p.table = .ok table) (ended : Option Cancelled) (m : Membership) :
    (p.askAll ended m).Answers (p.entitlementsOf table m) := by
  have hroles : (p.askRoles ended m).Answers _ := Consultation.answers_ask_if ..
  have hpermissions := answers_askPermissions h ended m
  have hgroups (a : Account) : (p.askGroups ended a).Answers _ := Consultation.answers_ask_if ..
  have hprofile (a : Account) : (p.askProfile ended a).Answers _ := Consultation.answers_ask_if ..
  exact ((hroles.and hpermissions).and ((hgroups _).and (hprofile _))).map _

end Providers

/-! ### What a resolution leaves in the cache -/

namespace IdentityCache

/-- `c'` holds what `c` does, or less of it, and beyond that only what is `new`. -/
structure Renewed (new : Membership → CachedEntitlements → Prop) (c c' : IdentityCache) : Prop where
  lifetime : c'.lifetime = c.lifetime
  entries : ∀ m e, c'.entries.get? m = some e → c.entries.get? m = some e ∨ new m e

variable {new : Membership → CachedEntitlements → Prop} {c c' : IdentityCache} {now : Instant}

theorem Renewed.refl (c : IdentityCache) : c.Renewed new c := ⟨rfl, fun _ _ => .inl⟩

theorem renewed_filter (c : IdentityCache) (p : Membership → CachedEntitlements → Bool) :
    c.Renewed new (c.filter p) := by
  refine ⟨rfl, fun m e hm => .inl ?_⟩
  rw [filter, SortedMap.get?_filter, Option.filter_eq_some_iff] at hm
  exact hm.1

theorem renewed_get (c : IdentityCache) (app : AppId) (s : Subject) (now : Instant) :
    c.Renewed new (c.get app s now).2 :=
  ⟨lifetime_get c app s now, fun _ _ h => .inl (get?_get h)⟩

theorem Renewed.insert? (h : c.Renewed new c') {i : Identity} {c'' : IdentityCache}
    (hinsert : c'.insert? i now = some c'')
    (hnew : ∀ t, now.addMillis? c.lifetime = some t →
      new ⟨i.tenant, i.app, i.subject.id⟩ ⟨i.entitlements, t⟩) : c.Renewed new c'' := by
  obtain ⟨t, ht, rfl⟩ := Option.map_eq_some_iff.1 hinsert
  rw [h.lifetime] at ht
  refine ⟨h.lifetime, fun m e hm => ?_⟩
  rw [SortedMap.get?_insert] at hm
  split at hm
  next hkey =>
    cases hm
    exact .inr (hkey ▸ hnew t ht)
  · exact h.entries m e hm

theorem renewed_clear (c : IdentityCache) : c.Renewed new c.clear := ⟨rfl, fun _ _ hm => by cases hm⟩

theorem not_get?_invalidate {tenant : TenantId} {subject : SubjectId} {m : Membership}
    {e : CachedEntitlements} (hm : (c.invalidate tenant subject).entries.get? m = some e) :
    ¬(tenant = m.tenant ∧ subject = m.subject) := by
  rintro ⟨rfl, rfl⟩
  rw [invalidate, filter, SortedMap.get?_filter, Option.filter_eq_some_iff] at hm
  simp at hm

end IdentityCache

namespace Providers

variable {p : Providers} {table : RoleTable} {now : Instant} {ended : Option Cancelled}
  {s : Subject} {cache : Option IdentityCache} {ls : Lines}

/-- However a resolution ends, what it adds to the cache is an answer of the providers, good for the
lifetime of the cache from now on. -/
theorem resolve_renewed (h : p.table = .ok table) {c' : IdentityCache}
    (hc' : (p.resolve now ended s cache ls).2.1 = some c') :
    ∃ c, cache = some c ∧ c.Renewed (fun m e => e.entitlements = p.entitlementsOf table m ∧
      now.addMillis? c.lifetime = some e.expiresAt) c' := by
  unfold Providers.resolve at hc'
  split at hc'
  · exact ⟨c', hc', .refl c'⟩
  next app happ =>
    cases cache with
    | none =>
      simp only at hc'
      split at hc' <;> cases hc'
    | some c =>
      refine ⟨c, rfl, ?_⟩
      have hget : c.Renewed (fun m e => e.entitlements = p.entitlementsOf table m ∧
          now.addMillis? c.lifetime = some e.expiresAt) (c.get app s now).2 :=
        c.renewed_get app s now
      simp only at hc'
      split at hc'
      · cases hc'
        exact hget
      next hmiss =>
        split at hc'
        · cases hc'
          exact hget
        · cases hc'
          exact hget
        next e ls₁ hasked =>
          split at hc'
          next c'' hinsert =>
            cases hc'
            obtain rfl := (answers_askAll h ended _).only _ _ _ hasked
            exact hget.insert? hinsert fun t ht => ⟨rfl, ht⟩
          · cases hc'
            exact hget

end Providers

/-! ### Steps -/

/-- What may happen around resolutions: changes of what the providers look things up in, resolutions,
upkeep of the cache, and time. -/
inductive ResolutionStep
  | directory (f : Directory → Directory)
  | roles (f : RoleTable → RoleTable)
  | resolve (ended : Option Cancelled) (s : Subject)
  | invalidate (tenant : TenantId) (subject : SubjectId)
  | purge
  | clear
  | clock (t : Instant)

namespace ResolutionStep

/-- What a clock shows after the step. -/
def time (now : Instant) : ResolutionStep → Instant
  | clock t => t
  | _ => now

/-- The step drops all that is cached for a subject in a tenant. -/
def Drops (tenant : TenantId) (subject : SubjectId) : ResolutionStep → Prop
  | invalidate tenant' subject' => tenant' = tenant ∧ subject' = subject
  | clear => True
  | _ => False

end ResolutionStep

namespace Deployment

def step (sources : Sources) (d : Deployment) : ResolutionStep → Deployment
  | .directory f => d.withDirectory f
  | .roles f => d.withRoles f
  | .resolve ended s => (d.identify sources ended s).2
  | .invalidate tenant subject => { d with cache := d.cache.map (·.invalidate tenant subject) }
  | .purge => { d with cache := d.cache.map (·.purge d.clock) }
  | .clear => { d with cache := d.cache.map (·.clear) }
  | .clock t => d.setClock t

/-- The deployment after some steps. -/
def after (sources : Sources) (d : Deployment) (steps : List ResolutionStep) : Deployment :=
  steps.foldl (step sources) d

/-- What the providers answer for a member, if the role table is within reach. -/
def entitlementsOf (sources : Sources) (d : Deployment) (m : Membership) :
    Except DecisionError Entitlements :=
  d.rights.roles.map fun table => (d.providers sources).entitlementsOf table m

/-- A resolution that asks the providers now puts this entry into a cache of this lifetime. -/
structure Puts (sources : Sources) (d : Deployment) (lifetime : Int) (m : Membership)
    (e : CachedEntitlements) : Prop where
  answered : d.entitlementsOf sources m = .ok e.entitlements
  expiresAt : d.clock.addMillis? lifetime = some e.expiresAt

variable {sources : Sources} {d : Deployment} {steps : List ResolutionStep} {x : ResolutionStep}
  {m : Membership} {table : RoleTable}

theorem after_concat (d : Deployment) (steps : List ResolutionStep) (x : ResolutionStep) :
    d.after sources (steps ++ [x]) = (d.after sources steps).step sources x := by
  unfold after
  rw [List.foldl_append, List.foldl_cons, List.foldl_nil]

/-- Nothing but setting it moves the clock. -/
theorem clock_step (d : Deployment) (x : ResolutionStep) :
    (d.step sources x).clock = x.time d.clock := by
  cases x <;> rfl

theorem clock_after (d : Deployment) (steps : List ResolutionStep) :
    (d.after sources steps).clock = steps.foldl ResolutionStep.time d.clock := by
  induction steps generalizing d with
  | nil => rfl
  | cons x steps ih => exact (ih _).trans (by rw [clock_step, List.foldl_cons])

/-- The role table stays within reach. -/
theorem roles_step (sources : Sources) (h : d.rights.roles = .ok table) (x : ResolutionStep) :
    ∃ table', (d.step sources x).rights.roles = .ok table' := by
  cases x with
  | roles f => exact ⟨f table, by simp only [step, withRoles, h, Except.map]⟩
  | _ => exact ⟨table, h⟩

theorem roles_after (sources : Sources) (h : d.rights.roles = .ok table)
    (steps : List ResolutionStep) :
    ∃ table', (d.after sources steps).rights.roles = .ok table' := by
  induction steps generalizing d table with
  | nil => exact ⟨table, h⟩
  | cons x steps ih =>
    obtain ⟨table', h'⟩ := roles_step sources h x
    exact ih h'

/-- What is cached after a step was cached before or is put now, and it is not what the step drops. -/
theorem cache_step (h : d.rights.roles = .ok table) {c' : IdentityCache}
    (hc' : (d.step sources x).cache = some c') :
    ∃ c, d.cache = some c ∧ c.Renewed (d.Puts sources c.lifetime) c' ∧
      ∀ m e, c'.entries.get? m = some e → ¬x.Drops m.tenant m.subject := by
  cases x with
  | directory f => exact ⟨c', hc', .refl c', fun _ _ _ => id⟩
  | roles f => exact ⟨c', hc', .refl c', fun _ _ _ => id⟩
  | clock t => exact ⟨c', hc', .refl c', fun _ _ _ => id⟩
  | resolve ended s =>
    obtain ⟨c, hc, hrenewed⟩ := Providers.resolve_renewed (p := d.providers sources) h hc'
    refine ⟨c, hc, ⟨hrenewed.lifetime, fun m e hm => ?_⟩, fun _ _ _ => id⟩
    refine (hrenewed.entries m e hm).imp_right fun hnew => ⟨?_, hnew.2⟩
    rw [entitlementsOf, h, hnew.1]
    rfl
  | invalidate tenant subject =>
    obtain ⟨c, hc, rfl⟩ := Option.map_eq_some_iff.1 hc'
    exact ⟨c, hc, c.renewed_filter _, fun _ _ => IdentityCache.not_get?_invalidate⟩
  | purge =>
    obtain ⟨c, hc, rfl⟩ := Option.map_eq_some_iff.1 hc'
    exact ⟨c, hc, c.renewed_filter _, fun _ _ _ => id⟩
  | clear =>
    obtain ⟨c, hc, rfl⟩ := Option.map_eq_some_iff.1 hc'
    exact ⟨c, hc, c.renewed_clear, fun _ _ hm => by cases hm⟩

/-! ### Runs -/

/-- Every entry of a cache that was empty was put at some moment of the run, and no step since then
drops it. -/
theorem cache_after (h : d.rights.roles = .ok table)
    (hempty : ∀ c, d.cache = some c → c.entries = .empty) {c' : IdentityCache}
    (hc' : (d.after sources steps).cache = some c') :
    ∃ c, d.cache = some c ∧ c'.lifetime = c.lifetime ∧ ∀ m e, c'.entries.get? m = some e →
      ∃ earlier later, steps = earlier ++ later ∧
        (d.after sources earlier).Puts sources c.lifetime m e ∧
        ∀ x ∈ later, ¬x.Drops m.tenant m.subject := by
  induction steps using List.reverseRecOn generalizing c' with
  | nil =>
    refine ⟨c', hc', rfl, fun m e hm => ?_⟩
    rw [hempty c' hc'] at hm
    cases hm
  | append_singleton steps x ih =>
    obtain ⟨table', h'⟩ := roles_after sources h steps
    rw [after_concat] at hc'
    obtain ⟨c₁, hc₁, hrenewed, hdrops⟩ := cache_step h' hc'
    obtain ⟨c, hc, hlifetime, hput⟩ := ih hc₁
    refine ⟨c, hc, hrenewed.lifetime.trans hlifetime, fun m e hm => ?_⟩
    rcases hrenewed.entries m e hm with hold | hnew
    · obtain ⟨earlier, later, rfl, hput, hkept⟩ := hput m e hold
      refine ⟨earlier, later ++ [x], List.append_assoc .., hput, fun y hy => ?_⟩
      rcases List.mem_append.1 hy with hy | hy
      · exact hkept y hy
      · obtain rfl := List.mem_singleton.1 hy
        exact hdrops m e hm
    · refine ⟨steps, [x], rfl, hlifetime ▸ hnew, fun y hy => ?_⟩
      obtain rfl := List.mem_singleton.1 hy
      exact hdrops m e hm

/-- The clock after some of the steps is not ahead of the clock after all. -/
theorem clock_after_le {earlier later : List ResolutionStep}
    (h : Instant.Forward ResolutionStep.time d.clock (earlier ++ later)) :
    (d.after sources earlier).clock ≤ (d.after sources (earlier ++ later)).clock := by
  rw [clock_after, clock_after, List.foldl_append]
  exact h.of_append.le_foldl

/-- The identity is that of a subject in the application that it names, without a session. It holds
what the providers answered all together after the steps `earlier`: that is now, or it is less than
the lifetime of the cache ago and none of the steps `later` drops what is cached for the subject. -/
structure Recalls (sources : Sources) (d : Deployment) (earlier later : List ResolutionStep)
    (now : Instant) (s : Subject) (i : Identity) : Prop where
  subject : i.subject = s
  tenant : i.tenant = s.tenant
  app : s.app? = some i.app
  session : i.session = none
  answered : (d.after sources earlier).entitlementsOf sources ⟨s.tenant, i.app, s.id⟩ =
    .ok i.entitlements
  past : (d.after sources earlier).clock ≤ now
  fresh : later = [] ∨ ∃ c, d.cache = some c ∧
    Instant.WithinMillis c.lifetime (d.after sources earlier).clock now ∧
    ∀ x ∈ later, ¬x.Drops s.tenant s.id

/-- From an empty cache on, whatever is resolved recalls a moment of the run. -/
theorem identify_fresh (hroles : d.rights.roles = .ok table)
    (hempty : ∀ c, d.cache = some c → c.entries = .empty)
    (hforward : Instant.Forward ResolutionStep.time d.clock steps) {ended : Option Cancelled}
    {s : Subject} {i : Identity} {d' : Deployment}
    (h : (d.after sources steps).identify sources ended s = (.done (.ok i), d')) :
    ∃ earlier later, steps = earlier ++ later ∧ d.Recalls sources earlier later d'.clock s i := by
  unfold identify at h
  rcases hresolve : ((d.after sources steps).providers sources).resolve (d.after sources steps).clock
    ended s (d.after sources steps).cache (d.after sources steps).lines with ⟨y, cache, ls⟩
  rw [hresolve] at h
  obtain ⟨rfl, rfl⟩ : y = .done (.ok i) ∧ _ = d' := by simpa using h
  obtain ⟨app, e, happ, rfl, hsource⟩ := Providers.resolve_source hresolve
  rcases hsource with ⟨c, kept, hc, hkept, hgood, rfl⟩ | hasked
  · obtain ⟨c₀, hc₀, -, hput⟩ := cache_after hroles hempty hc
    obtain ⟨earlier, later, rfl, hput, hdrops⟩ := hput _ _ hkept
    refine ⟨earlier, later, rfl, rfl, rfl, happ, rfl, hput.answered, clock_after_le hforward, ?_⟩
    exact .inr ⟨c₀, hc₀, ⟨kept.expiresAt, hput.expiresAt, hgood⟩, hdrops⟩
  · obtain ⟨table', htable'⟩ := roles_after sources hroles steps
    obtain rfl := (Providers.answers_askAll htable' ended _).only _ _ _ hasked
    refine ⟨steps, [], (List.append_nil _).symm, rfl, rfl, happ, rfl, ?_, Instant.le_refl _, .inl rfl⟩
    rw [entitlementsOf, htable']
    rfl

end Deployment

namespace Sample

def alice : Subject :=
  ⟨⟨"alice"⟩, ⟨"acme"⟩, .user, "alice", .ofList [("app_id", .str "crm")]⟩

def member : Membership := ⟨⟨"acme"⟩, ⟨"crm"⟩, ⟨"alice"⟩⟩

/-- Roles are looked up, and kept for a minute. -/
def onlyRoles : Sources := ⟨true, none, false, false⟩

def minuteCache : Deployment := .new ⟨1700000000, 0⟩ .counting .direct (some (.empty 60000))

/-- The subject is resolved, gets a second role, and half a minute passes. -/
def promotion : List ResolutionStep :=
  [.directory (·.assign member [⟨"clerk"⟩]), .resolve none alice,
    .directory (·.assign member [⟨"manager"⟩]), .clock ⟨1700000030, 0⟩]

def clerk : Identity := (Identity.bare alice ⟨"crm"⟩).withRoles [⟨"clerk"⟩]

end Sample

open Sample in
theorem Deployment.promotion_unnoticed :
    ((minuteCache.after onlyRoles promotion).identify onlyRoles none alice).1 = .done (.ok clerk) ∧
      ∃ earlier later, promotion = earlier ++ later ∧
        minuteCache.Recalls onlyRoles earlier later ⟨1700000030, 0⟩ alice clerk := by
  have hresolved : ((minuteCache.after onlyRoles promotion).identify onlyRoles none alice).1 =
      .done (.ok clerk) := rfl
  have hempty : ∀ c, minuteCache.cache = some c → c.entries = .empty := by
    intro c hc
    cases hc
    rfl
  have hlater : (⟨1700000000, 0⟩ : Instant) ≤ ⟨1700000030, 0⟩ := by decide
  have hforward : Instant.Forward ResolutionStep.time minuteCache.clock promotion :=
    ⟨Instant.le_refl _, Instant.le_refl _, Instant.le_refl _, hlater, trivial⟩
  exact ⟨hresolved, identify_fresh rfl hempty hforward (Prod.ext hresolved rfl)⟩

end AccessControl
