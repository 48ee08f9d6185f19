import AccessControl.Identity.Resolution
import AccessControl.Proofs.Token.FailFast

/-!
# Providers that fail

Whatever is resolved over disturbed lines is resolved over reliable ones as well: no refusal is taken
for an answer. A resolved identity is that of the subject which was asked about, in the application
that its attributes name.
-/

namespace AccessControl

namespace Consultation

variable {α β : Type} {x x' : Consultation α} {y y' : Consultation β}

theorem map_answered {f : α → β} {b : β} {ls ls' : Lines} :
    x.map f ls = (.answered b, ls') ↔ ∃ a, x ls = (.answered a, ls') ∧ f a = b := by
  unfold Consultation.map
  rcases x ls with ⟨a | e | _, ls₁⟩ <;> grind [Reply.map]

theorem through_answered {f : α → Except IdentityError β} {b : β} {ls ls' : Lines} :
    x.through f ls = (.answered b, ls') ↔ ∃ a, x ls = (.answered a, ls') ∧ f a = .ok b := by
  unfold Consultation.through
  rcases x ls with ⟨a | e | _, ls₁⟩
  · cases hf : f a <;> grind
  · simp
  · simp

/-- One that waits is not rescued by the answer of the other. -/
theorem and_answered {a : α} {b : β} {ls ls' : Lines} :
    x.and y ls = (.answered (a, b), ls') ↔
      ∃ ls₁, x ls = (.answered a, ls₁) ∧ y ls₁ = (.answered b, ls') := by
  unfold Consultation.and
  rcases x ls with ⟨a' | e | _, ls₁⟩
  · rcases hy : y ls₁ with ⟨b' | e | _, ls₂⟩ <;> simp [Reply.map, hy, and_assoc]
  · simp
  · rcases hy : y ls₁ with ⟨b' | e | _, ls₂⟩ <;> simp [hy]

/-- What the first answers over disturbed lines, the second answers over reliable ones. -/
def Within (x x' : Consultation α) : Prop :=
  ∀ ls a ls', x ls = (.answered a, ls') → x' ls.reliable = (.answered a, ls'.reliable)

theorem within_none (a : α) : Within (none a) (none a) := by
  rintro ls _ _ h
  cases h
  rfl

theorem within_ask (p : Provider) (t : Target) (ended ended' : Option Cancelled) (a : α) :
    Within (ask p t ended a) (ask p t ended' a) := by
  intro ls c ls' h
  have hfault : ∀ f, (ls.call t).1 = some f → f = .lie := by
    intro f hf
    cases f with
    | lie => rfl
    | offline => simp [ask, hf] at h
    | givenUp c => simp [ask, hf] at h
    | hang => cases ended <;> simp [ask, hf, race] at h
  have hcall := Lines.call_reliable hfault
  simp only [ask, hcall] at h ⊢
  cases hf : (ls.call t).1 with
  | none =>
    simp only [hf, Prod.mk.injEq] at h ⊢
    exact ⟨h.1, by rw [h.2]⟩
  | some f =>
    obtain rfl := hfault f hf
    simp only [hf, Prod.mk.injEq] at h ⊢
    exact ⟨h.1, by rw [h.2]⟩

theorem within_ask_if (c : Bool) (p : Provider) (t : Target) (ended ended' : Option Cancelled)
    (a b : α) : Within (if c then ask p t ended a else none b)
      (if c then ask p t ended' a else none b) := by
  cases c with
  | false => exact within_none b
  | true => exact within_ask p t ended ended' a

theorem Within.map (h : x.Within x') (f : α → β) : (x.map f).Within (x'.map f) := by
  intro ls b ls' hx
  obtain ⟨a, ha, hf⟩ := map_answered.1 hx
  exact map_answered.2 ⟨a, h _ _ _ ha, hf⟩

theorem Within.through (h : x.Within x') {f f' : α → Except IdentityError β}
    (hf : ∀ a b, f a = .ok b → f' a = .ok b) : (x.through f).Within (x'.through f') := by
  intro ls b ls' hx
  obtain ⟨a, ha, hb⟩ := through_answered.1 hx
  exact through_answered.2 ⟨a, h _ _ _ ha, hf a b hb⟩

theorem Within.and (h : x.Within x') (h' : y.Within y') : (x.and y).Within (x'.and y') := by
  rintro ls ⟨a, b⟩ ls' hxy
  obtain ⟨ls₁, ha, hb⟩ := and_answered.1 hxy
  exact and_answered.2 ⟨ls₁.reliable, h _ _ _ ha, h' _ _ _ hb⟩

end Consultation

namespace Providers

variable {p p' : Providers}

/-- The same providers, with a role table that may answer where the other does not. -/
structure ExtendedBy (p p' : Providers) : Prop where
  sources : p'.sources = p.sources
  directory : p'.directory = p.directory
  table : ∀ t, p.table = .ok t → p'.table = .ok t

theorem ExtendedBy.askPermissions (h : p.ExtendedBy p') (ended ended' : Option Cancelled)
    (m : Membership) : (p.askPermissions ended m).Within (p'.askPermissions ended' m) := by
  unfold Providers.askPermissions
  rw [h.sources, h.directory]
  cases p.sources.permissions with
  | none => exact Consultation.within_none _
  | some source =>
    cases source with
    | assigned => exact Consultation.within_ask _ _ _ _ _
    | throughRoles =>
      refine (Consultation.within_ask _ _ _ _ _).through fun l ps hl => ?_
      cases ht : p.table with
      | ok t =>
        rw [ht] at hl
        rw [h.table t ht]
        exact hl
      | error e =>
        rw [ht] at hl
        cases hl

theorem ExtendedBy.askAll (h : p.ExtendedBy p') (ended ended' : Option Cancelled) (m : Membership) :
    (p.askAll ended m).Within (p'.askAll ended' m) := by
  have hroles : (p.askRoles ended m).Within (p'.askRoles ended' m) := by
    unfold askRoles
    rw [h.sources, h.directory]
    exact Consultation.within_ask_if _ _ _ _ _ _ _
  have hgroups (a : Account) : (p.askGroups ended a).Within (p'.askGroups ended' a) := by
    unfold askGroups
    rw [h.sources, h.directory]
    exact Consultation.within_ask_if _ _ _ _ _ _ _
  have hprofile (a : Account) : (p.askProfile ended a).Within (p'.askProfile ended' a) := by
    unfold askProfile
    rw [h.sources, h.directory]
    exact Consultation.within_ask_if _ _ _ _ _ _ _
  have hpermissions := h.askPermissions ended ended' m
  exact ((hroles.and hpermissions).and ((hgroups _).and (hprofile _))).map _

/-- What is resolved over disturbed lines is resolved over reliable ones, from the cache or not. -/
theorem ExtendedBy.resolve (h : p.ExtendedBy p') {now : Instant} {ended : Option Cancelled}
    (ended' : Option Cancelled) {s : Subject} {cache cache' : Option IdentityCache}
    {ls ls' : Lines} {i : Identity}
    (hi : p.resolve now ended s cache ls = (.done (.ok i), cache', ls')) :
    p'.resolve now ended' s cache ls.reliable = (.done (.ok i), cache', ls'.reliable) := by
  unfold Providers.resolve at hi ⊢
  split at hi
  · cases hi
  next app happ =>
    simp only at hi ⊢
    split at hi
    · cases hi
      rfl
    next hmiss =>
      have hanswered := h.askAll ended ended' ⟨s.tenant, app, s.id⟩ ls
      split at hi
      · cases hi
      · cases hi
      next e ls₁ hasked =>
        simp only [hanswered _ _ hasked]
        split at hi
        · cases hi
          rfl
        next c hc =>
          split at hi
          next hinserted =>
            cases hi
            rfl
          · cases hi

/-- A resolved identity is that of the subject, with what the cache still has of it or else with what
the providers answer. -/
theorem resolve_source {now : Instant} {ended : Option Cancelled} {s : Subject}
    {cache cache' : Option IdentityCache} {ls ls' : Lines} {i : Identity}
    (hi : p.resolve now ended s cache ls = (.done (.ok i), cache', ls')) :
    ∃ app e, s.app? = some app ∧ i = Entitlements.identity e s app ∧
      ((∃ c kept, cache = some c ∧ c.entries.get? ⟨s.tenant, app, s.id⟩ = some kept ∧
          now < kept.expiresAt ∧ kept.entitlements = e) ∨
        p.askAll ended ⟨s.tenant, app, s.id⟩ ls = (.answered e, ls')) := by
  unfold Providers.resolve at hi
  split at hi
  · cases hi
  next app happ =>
    simp only at hi
    split at hi
    next i' hhit =>
      obtain ⟨rfl, -⟩ : i' = i ∧ _ := by simpa using hi
      cases cache with
      | none => cases hhit
      | some c =>
        obtain ⟨kept, hkept, hgood, rfl⟩ := IdentityCache.get_hit hhit
        exact ⟨app, kept.entitlements, happ, rfl, .inl ⟨c, kept, rfl, hkept, hgood, rfl⟩⟩
    next hmiss =>
      split at hi
      · cases hi
      · cases hi
      next e ls₁ hasked =>
        split at hi
        · cases hi
          exact ⟨app, e, happ, rfl, .inr hasked⟩
        next c hc =>
          split at hi
          · cases hi
            exact ⟨app, e, happ, rfl, .inr hasked⟩
          · cases hi

end Providers

end AccessControl
