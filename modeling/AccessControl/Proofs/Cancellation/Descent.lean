import AccessControl.Cancellation

/-!
# What becomes of derived contexts

Contexts are derived from one another in any order, get deadlines and are cancelled. A `Family`
keeps beside the contexts how each came about, so that `Derived` can say which stem from which
without a look at the forest.

Cancelling a context ends all that are derived from it (`Family.ended?_of_cancelled`) and none that
is not derived from it or from the one it is a copy of (`Family.derived_of_newly_ended`). A deadline
is copied when a context is derived and replaced when another is set: it ends the derived contexts
unless the last one that was set on the way is still to come (`Family.ended?_of_ended`).
-/

namespace AccessControl

namespace Contexts

variable {c c' c'' : Contexts} {k s p : Nat} {x y : Context}

/-! ### What later calls keep -/

/-- Contexts stay what they are, scopes keep their parents, and what was cancelled stays so. -/
structure Extends (c c' : Contexts) : Prop where
  contexts : c.contexts <+: c'.contexts
  scopes : c.scopes.length ≤ c'.scopes.length
  parent : ∀ s < c.scopes.length, c'.parent? s = c.parent? s
  flagged : ∀ s, c.flagged s → c'.flagged s

namespace Extends

theorem refl (c : Contexts) : Extends c c :=
  ⟨List.prefix_refl _, Nat.le_refl _, fun _ _ => rfl, fun _ h => h⟩

theorem trans (h : Extends c c') (h' : Extends c' c'') : Extends c c'' where
  contexts := h.contexts.trans h'.contexts
  scopes := Nat.le_trans h.scopes h'.scopes
  parent s hs := (h'.parent s (Nat.lt_of_lt_of_le hs h.scopes)).trans (h.parent s hs)
  flagged s hs := h'.flagged s (h.flagged s hs)

theorem getElem? (h : Extends c c') (hx : c.contexts[k]? = some x) :
    c'.contexts[k]? = some x := by
  obtain ⟨l, hl⟩ := h.contexts
  rw [← hl, List.getElem?_append_left (List.getElem?_eq_some_iff.1 hx).1, hx]

theorem getElem?_of_lt (h : Extends c c') (hk : k < c.contexts.length) :
    c'.contexts[k]? = c.contexts[k]? :=
  (h.getElem? (List.getElem?_eq_getElem hk)).trans (List.getElem?_eq_getElem hk).symm

end Extends

/-- What `fresh` and `child` do: a context with a scope of its own, below `parent` if there is one. -/
def grow (c : Contexts) (parent : Option Nat) (deadline : Option Instant) : Contexts :=
  ⟨c.scopes ++ [⟨parent, false⟩], c.contexts ++ [⟨c.scopes.length, deadline⟩]⟩

theorem extends_grow (c : Contexts) (parent : Option Nat) (deadline : Option Instant) :
    Extends c (c.grow parent deadline) where
  contexts := List.prefix_append ..
  scopes := by simp [grow]
  parent s hs := by simp only [parent?, grow, List.getElem?_append_left hs]
  flagged s hs := by
    have hlt : s < c.scopes.length := by
      rw [flagged] at hs
      cases hscope : c.scopes[s]? with
      | none => simp [hscope] at hs
      | some scope => exact (List.getElem?_eq_some_iff.1 hscope).1
    simpa only [flagged, grow, List.getElem?_append_left hlt] using hs

theorem extends_withDeadline (c : Contexts) (x : Context) (t : Instant) :
    Extends c (c.withDeadline x t) :=
  ⟨List.prefix_append .., Nat.le_refl _, fun _ _ => rfl, fun _ h => h⟩

theorem extends_cancel (hx : x.scope < c.scopes.length) :
    Extends c (c.cancel x) where
  contexts := List.prefix_refl _
  scopes := by simp [cancel]
  parent _ _ := parent?_cancel x
  flagged _ hs := (flagged_cancel hx).2 (.inl hs)

theorem parent?_grow_length (c : Contexts) (parent : Option Nat) (deadline : Option Instant) :
    (c.grow parent deadline).parent? c.scopes.length = parent := by
  simp [parent?, grow]

theorem parent?_grow_cases {parent : Option Nat} {deadline : Option Instant}
    (h : (c.grow parent deadline).parent? s = some p) :
    c.parent? s = some p ∨ s = c.scopes.length ∧ parent = some p := by
  obtain ⟨scope, hscope, hp⟩ := Option.bind_eq_some_iff.1 h
  rcases getElem?_concat_eq_some.1 hscope with hold | ⟨rfl, rfl⟩
  · exact .inl (Option.bind_eq_some_iff.2 ⟨scope, hold, hp⟩)
  · exact .inr ⟨rfl, hp⟩

/-! ### Scopes that exist -/

/-- Every context has a scope, and a scope is younger than its parent, so that `scopeCancelled`
looks at all that it stands below. -/
structure Sound (c : Contexts) : Prop where
  ordered : c.Ordered
  scope_lt : ∀ (k : Nat) (x : Context), c.contexts[k]? = some x → x.scope < c.scopes.length

theorem Sound.grow (h : c.Sound) {parent : Option Nat} {deadline : Option Instant}
    (hparent : ∀ p, parent = some p → p < c.scopes.length) : (c.grow parent deadline).Sound where
  ordered s p hp := by
    rcases parent?_grow_cases hp with hold | ⟨rfl, hnew⟩
    · exact h.ordered hold
    · exact hparent p hnew
  scope_lt k x hx := by
    rw [Contexts.grow, List.length_append, List.length_singleton]
    rcases getElem?_concat_eq_some.1 hx with hold | ⟨-, rfl⟩
    · exact Nat.lt_succ_of_lt (h.scope_lt k x hold)
    · exact Nat.lt_succ_self _

theorem Sound.withDeadline (h : c.Sound) (hx : x.scope < c.scopes.length) (t : Instant) :
    (c.withDeadline x t).Sound where
  ordered := h.ordered
  scope_lt k y hy := by
    rcases getElem?_concat_eq_some.1 hy with hold | ⟨-, rfl⟩
    · exact h.scope_lt k y hold
    · exact hx

theorem Sound.cancel (h : c.Sound) (x : Context) : (c.cancel x).Sound where
  ordered s p hp := h.ordered (parent?_cancel x ▸ hp)
  scope_lt k y hy := by
    rw [Contexts.cancel, List.length_modify]
    exact h.scope_lt k y hy

/-- A scope that is cancelled after a call was so before it, or is the one that the call names, or
stands below one that is cancelled after it. -/
theorem cancel_cases (h : c.Sound) (hx : x.scope < c.scopes.length)
    (hs : (c.cancel x).scopeCancelled s) : c.scopeCancelled s ∨ s = x.scope ∨
      ∃ p, c.parent? s = some p ∧ (c.cancel x).scopeCancelled p := by
  rcases (scopeCancelled_iff (h.cancel x).ordered).1 hs with hflag | ⟨p, hp, habove⟩
  · rcases (flagged_cancel hx).1 hflag with hold | hnamed
    · exact .inl (scopeCancelled_of_flagged h.ordered hold)
    · exact .inr (.inl hnamed)
  · exact .inr (.inr ⟨p, parent?_cancel x ▸ hp, habove⟩)

end Contexts

/-! ### Origins -/

/-- How a context came about; contexts are named by their number. -/
inductive Origin
  | background
  | child (i : Nat)
  | dated (i : Nat) (t : Instant)
  deriving DecidableEq, Repr

/-- Context `k` stems from context `i` by `n` child calls, and `last` is the last deadline that was
set on the way. -/
inductive Derived (os : List Origin) (i : Nat) : Nat → Nat → Option Instant → Prop
  | self : Derived os i i 0 none
  | child {j k n : Nat} {last : Option Instant} : Derived os i j n last → os[k]? = some (.child j) →
      Derived os i k (n + 1) last
  | dated {j k n : Nat} {last : Option Instant} {t : Instant} : Derived os i j n last →
      os[k]? = some (.dated j t) → Derived os i k n (some t)

namespace Contexts

variable {c c' : Contexts} {k : Nat} {x y : Context} {o : Origin}

/-- Context `k` is `y`, and its scope was made for it. -/
structure New (c : Contexts) (k : Nat) (y : Context) : Prop where
  eq : c.contexts[k]? = some y
  newer : ∀ (j : Nat) (x : Context), c.contexts[j]? = some x → j < k → x.scope < y.scope

/-- Context `k` is what its origin makes of the contexts before it. -/
inductive Fits (c : Contexts) (k : Nat) : Origin → Prop
  | background {y : Context} (hy : c.New k y) (root : c.parent? y.scope = none) :
      Fits c k .background
  | child {i : Nat} {x y : Context} (hx : c.contexts[i]? = some x) (hi : i < k) (hy : c.New k y)
      (below : c.parent? y.scope = some x.scope) (deadline : y.deadline = x.deadline) :
      Fits c k (.child i)
  | dated {i : Nat} {x : Context} {t : Instant} (hx : c.contexts[i]? = some x) (hi : i < k)
      (hy : c.contexts[k]? = some { x with deadline := some t }) : Fits c k (.dated i t)

theorem new_grow (h : c.Sound) (parent : Option Nat) (deadline : Option Instant) :
    (c.grow parent deadline).New c.contexts.length ⟨c.scopes.length, deadline⟩ where
  eq := List.getElem?_concat_length ..
  newer j x hx hj := by
    rw [(extends_grow c parent deadline).getElem?_of_lt hj] at hx
    exact h.scope_lt j x hx

theorem New.extends (h : c.New k y) (hc : Extends c c') : c'.New k y where
  eq := hc.getElem? h.eq
  newer j x hx hj := by
    have hk : k < c.contexts.length := (List.getElem?_eq_some_iff.1 h.eq).1
    rw [hc.getElem?_of_lt (Nat.lt_trans hj hk)] at hx
    exact h.newer j x hx hj

theorem Fits.extends (h : c.Fits k o) (hc : Extends c c') (hs : c.Sound) : c'.Fits k o := by
  cases h with
  | background hy root =>
    exact .background (hy.extends hc) ((hc.parent _ (hs.scope_lt _ _ hy.eq)).trans root)
  | child hx hi hy below deadline =>
    exact .child (hc.getElem? hx) hi (hy.extends hc)
      ((hc.parent _ (hs.scope_lt _ _ hy.eq)).trans below) deadline
  | dated hx hi hy => exact .dated (hc.getElem? hx) hi (hc.getElem? hy)

end Contexts

/-! ### Families -/

/-- A call on the contexts there are; a timeout is in nanoseconds and counts from the reading. -/
inductive ContextCall
  | background
  | child (i : Nat)
  | deadline (i : Nat) (t : Instant)
  | timeout (i : Nat) (nanos : Nat) (reading : Instant)
  | cancel (i : Nat)
  deriving DecidableEq, Repr

/-- Contexts, and how each came about. -/
structure Family where
  made : Contexts
  origins : List Origin

namespace Family

variable {f f' : Family} {i k n : Nat} {x y : Context} {last : Option Instant} {now : Instant}
  {o : Origin}

def dated (f : Family) (i : Nat) (t : Instant) : Family :=
  match f.made.contexts[i]? with
  | some x => ⟨f.made.withDeadline x t, f.origins ++ [.dated i t]⟩
  | none => f

/-- A call on a context that does not exist, and a timeout that leads past the last moment of the
clock, change nothing. -/
def call (f : Family) : ContextCall → Family
  | .background => ⟨f.made.fresh, f.origins ++ [.background]⟩
  | .child i => match f.made.contexts[i]? with
    | some x => ⟨f.made.child x, f.origins ++ [.child i]⟩
    | none => f
  | .deadline i t => f.dated i t
  | .timeout i nanos reading => match reading.later? nanos with
    | some t => f.dated i t
    | none => f
  | .cancel i => match f.made.contexts[i]? with
    | some x => { f with made := f.made.cancel x }
    | none => f

def empty : Family := ⟨⟨[], []⟩, []⟩

def after (calls : List ContextCall) : Family := calls.foldl call empty

def ended? (f : Family) (i : Nat) (now : Instant) : Option Cancelled :=
  f.made.contexts[i]?.bind (f.made.ended? · now)

theorem ended?_eq (hx : f.made.contexts[i]? = some x) (now : Instant) :
    f.ended? i now = f.made.ended? x now := by
  rw [ended?, hx, Option.bind_some]

/-- What a call can make of a family. -/
inductive Becomes (f : Family) : Family → Prop
  | same : Becomes f f
  | fresh : Becomes f ⟨f.made.fresh, f.origins ++ [.background]⟩
  | child {i : Nat} {x : Context} (hx : f.made.contexts[i]? = some x) :
      Becomes f ⟨f.made.child x, f.origins ++ [.child i]⟩
  | dated {i : Nat} {x : Context} {t : Instant} (hx : f.made.contexts[i]? = some x) :
      Becomes f ⟨f.made.withDeadline x t, f.origins ++ [.dated i t]⟩
  | cancelled {i : Nat} {x : Context} (hx : f.made.contexts[i]? = some x) :
      Becomes f { f with made := f.made.cancel x }

theorem becomes_dated (f : Family) (i : Nat) (t : Instant) : Becomes f (f.dated i t) := by
  unfold dated
  split
  next hx => exact .dated hx
  · exact .same

theorem becomes_call (f : Family) (q : ContextCall) : Becomes f (f.call q) := by
  cases q with
  | background => exact .fresh
  | child i =>
    simp only [call]
    split
    next hx => exact .child hx
    · exact .same
  | deadline i t => exact becomes_dated f i t
  | timeout i nanos reading =>
    simp only [call]
    split
    · exact becomes_dated f i _
    · exact .same
  | cancel i =>
    simp only [call]
    split
    next hx => exact .cancelled hx
    · exact .same

theorem call_cancel (hx : f.made.contexts[i]? = some x) :
    f.call (.cancel i) = { f with made := f.made.cancel x } := by
  simp only [call, hx]

/-! ### What holds after every call -/

structure Sound (f : Family) : Prop where
  made : f.made.Sound
  length : f.origins.length = f.made.contexts.length
  fits : ∀ k o, f.origins[k]? = some o → f.made.Fits k o

theorem Sound.extends (h : f.Sound) (hf : Becomes f f') : f.made.Extends f'.made := by
  cases hf with
  | same => exact .refl _
  | fresh => exact Contexts.extends_grow ..
  | child hx => exact Contexts.extends_grow ..
  | dated hx => exact Contexts.extends_withDeadline ..
  | cancelled hx => exact Contexts.extends_cancel (h.made.scope_lt _ _ hx)

theorem Sound.add (h : f.Sound) {made : Contexts} (hext : f.made.Extends made) (hmade : made.Sound)
    (hlength : made.contexts.length = f.made.contexts.length + 1)
    (ho : made.Fits f.made.contexts.length o) : Sound ⟨made, f.origins ++ [o]⟩ where
  made := hmade
  length := by rw [List.length_append, List.length_singleton, h.length, hlength]
  fits k o' hk := by
    rcases getElem?_concat_eq_some.1 hk with hold | ⟨rfl, rfl⟩
    · exact (h.fits k o' hold).extends hext h.made
    · exact h.length ▸ ho

theorem Sound.becomes (h : f.Sound) (hf : Becomes f f') : f'.Sound := by
  have hext := h.extends hf
  cases hf with
  | same => exact h
  | fresh =>
    refine h.add hext (h.made.grow nofun) List.length_append
      (.background (Contexts.new_grow h.made ..) ?_)
    exact Contexts.parent?_grow_length ..
  | @child i x hx =>
    have hscope := h.made.scope_lt _ _ hx
    refine h.add hext (h.made.grow fun p hp => Option.some.inj hp ▸ hscope) List.length_append
      (.child (hext.getElem? hx) (List.getElem?_eq_some_iff.1 hx).1 (Contexts.new_grow h.made ..) ?_
        rfl)
    exact Contexts.parent?_grow_length ..
  | @dated i x t hx =>
    exact h.add hext (h.made.withDeadline (h.made.scope_lt _ _ hx) t) List.length_append
      (.dated (hext.getElem? hx) (List.getElem?_eq_some_iff.1 hx).1
        (List.getElem?_concat_length ..))
  | @cancelled i x hx =>
    exact ⟨h.made.cancel x, h.length, fun k o hk => (h.fits k o hk).extends hext h.made⟩

theorem Sound.run (h : f.Sound) (calls : List ContextCall) :
    (calls.foldl call f).Sound ∧ f.made.Extends (calls.foldl call f).made := by
  induction calls generalizing f with
  | nil => exact ⟨h, .refl _⟩
  | cons q calls ih =>
    have hq := becomes_call f q
    obtain ⟨hsound, hext⟩ := ih (h.becomes hq)
    exact ⟨hsound, (h.extends hq).trans hext⟩

theorem sound_empty : Sound empty where
  made :=
    ⟨fun s p hp => by simp [Contexts.parent?, empty] at hp, fun k x hx => by simp [empty] at hx⟩
  length := rfl
  fits k o hk := by simp [empty] at hk

theorem sound_after (calls : List ContextCall) : (after calls).Sound := (sound_empty.run calls).1

/-! ### Down the line of descent -/

theorem Derived.fate (h : f.Sound) (hx : f.made.contexts[i]? = some x)
    (hd : Derived f.origins i k n last) : ∃ y, f.made.contexts[k]? = some y ∧
      (f.made.scopeCancelled x.scope → f.made.scopeCancelled y.scope) ∧
      y.deadline = last.or x.deadline := by
  induction hd with
  | self => exact ⟨x, hx, id, rfl⟩
  | child _ hk ih =>
    obtain ⟨y, hy, hcancelled, hdeadline⟩ := ih
    cases h.fits _ _ hk with
    | @child _ y' z hy' _ hz below copied =>
      obtain rfl : y = y' := Option.some.inj (hy.symm.trans hy')
      exact ⟨z, hz.eq,
        fun hc => Contexts.scopeCancelled_of_parent h.made.ordered below (hcancelled hc),
        copied.trans hdeadline⟩
  | dated _ hk ih =>
    obtain ⟨y, hy, hcancelled, -⟩ := ih
    cases h.fits _ _ hk with
    | @dated _ y' t hy' _ hz =>
      obtain rfl : y = y' := Option.some.inj (hy.symm.trans hy')
      exact ⟨_, hz, hcancelled, rfl⟩

theorem ended?_of_cancelled (h : f.Sound) (hd : Derived f.origins i k n last)
    (hi : f.ended? i now = some .byCaller) : f.ended? k now = some .byCaller := by
  obtain ⟨x, hx, hend⟩ := Option.bind_eq_some_iff.1 hi
  obtain ⟨y, hy, hcancelled, -⟩ := Derived.fate h hx hd
  rw [ended?_eq hy]
  exact Contexts.ended?_eq_byCaller.2 (hcancelled (Contexts.ended?_eq_byCaller.1 hend))

theorem ended?_of_ended (h : f.Sound) (hd : Derived f.origins i k n last)
    (hlast : ∀ t, last = some t → t ≤ now) (hi : f.ended? i now ≠ none) :
    f.ended? k now ≠ none := by
  obtain ⟨e, he⟩ := Option.ne_none_iff_exists'.1 hi
  obtain ⟨x, hx, hend⟩ := Option.bind_eq_some_iff.1 he
  obtain ⟨y, hy, hcancelled, hdeadline⟩ := Derived.fate h hx hd
  rw [ended?_eq hy]
  intro hnone
  obtain ⟨hfree, hin⟩ := Contexts.ended?_eq_none.1 hnone
  -- `y` has the last deadline that was set, and without one that of `x`
  have hx_none : f.made.ended? x now = none := by
    refine Contexts.ended?_eq_none.2 ⟨fun hc => hfree (hcancelled hc), fun d hdead hle => ?_⟩
    cases last with
    | none => exact hin d (hdeadline.trans hdead) hle
    | some t => exact hin t hdeadline (hlast t rfl)
  exact absurd (hx_none.symm.trans hend) nofun

/-! ### Up the line of descent -/

theorem Sound.origin (h : f.Sound) (hy : f.made.contexts[k]? = some y) :
    ∃ o, f.origins[k]? = some o ∧ f.made.Fits k o := by
  have hk : k < f.origins.length := h.length ▸ (List.getElem?_eq_some_iff.1 hy).1
  exact ⟨_, List.getElem?_eq_getElem hk, h.fits _ _ (List.getElem?_eq_getElem hk)⟩

/-- Contexts with the scope that was made for `r` are `r` with other deadlines. -/
theorem derived_of_scope_eq (h : f.Sound) {r : Nat} {z : Context} (hr : f.made.New r z)
    (hx : f.made.contexts[i]? = some x) (hscope : x.scope = z.scope) :
    ∃ t, Derived f.origins r i 0 t := by
  induction i using Nat.strongRecOn generalizing x with
  | ind i ih =>
    -- a scope that was made for `i` can be that of `r` only if they are the same
    have hself (hnew : f.made.New i x) : ∃ t, Derived f.origins r i 0 t := by
      rcases Nat.lt_trichotomy i r with hlt | rfl | hgt
      · exact absurd (hr.newer i x hx hlt) (by omega)
      · exact ⟨none, .self⟩
      · exact absurd (hnew.newer r z hr.eq hgt) (by omega)
    obtain ⟨o, ho, hfits⟩ := h.origin hx
    cases hfits with
    | @background x' hnew =>
      obtain rfl : x = x' := Option.some.inj (hx.symm.trans hnew.eq)
      exact hself hnew
    | @child _ _ x' _ _ hnew =>
      obtain rfl : x = x' := Option.some.inj (hx.symm.trans hnew.eq)
      exact hself hnew
    | dated hy hj hx' =>
      obtain rfl := Option.some.inj (hx.symm.trans hx')
      obtain ⟨u, hu⟩ := ih _ hj hy hscope
      exact ⟨_, .dated hu ho⟩

/-- What a call on `i` cancels stems from the context that `i` is a copy of. -/
theorem derived_of_cancel (h : f.Sound) (hx : f.made.contexts[i]? = some x)
    (hy : f.made.contexts[k]? = some y) (hfree : ¬f.made.scopeCancelled y.scope)
    (hcancelled : (f.made.cancel x).scopeCancelled y.scope) :
    ∃ r n last t, Derived f.origins r i 0 t ∧ Derived f.origins r k n last := by
  induction k using Nat.strongRecOn generalizing y with
  | ind k ih =>
    have hcases : y.scope = x.scope ∨
        ∃ p, f.made.parent? y.scope = some p ∧ (f.made.cancel x).scopeCancelled p :=
      (Contexts.cancel_cases h.made (h.made.scope_lt i x hx) hcancelled).resolve_left hfree
    have hcopy (hnew : f.made.New k y) (hsame : y.scope = x.scope) :
        ∃ r n last t, Derived f.origins r i 0 t ∧ Derived f.origins r k n last := by
      obtain ⟨t, ht⟩ := derived_of_scope_eq h hnew hx hsame.symm
      exact ⟨k, 0, none, t, ht, .self⟩
    obtain ⟨o, ho, hfits⟩ := h.origin hy
    cases hfits with
    | @background y' hnew root =>
      obtain rfl : y = y' := Option.some.inj (hy.symm.trans hnew.eq)
      rcases hcases with hsame | ⟨p, hp, -⟩
      · exact hcopy hnew hsame
      · exact absurd (root.symm.trans hp) nofun
    | @child _ z y' hz hj hnew below =>
      obtain rfl : y = y' := Option.some.inj (hy.symm.trans hnew.eq)
      rcases hcases with hsame | ⟨p, hp, habove⟩
      · exact hcopy hnew hsame
      · obtain rfl : z.scope = p := Option.some.inj (below.symm.trans hp)
        have hfree' := fun hc => hfree (Contexts.scopeCancelled_of_parent h.made.ordered below hc)
        obtain ⟨r, n, last, t, ht, hd⟩ := ih _ hj hz hfree' habove
        exact ⟨r, n + 1, last, t, ht, .child hd ho⟩
    | dated hz hj hy' =>
      obtain rfl := Option.some.inj (hy.symm.trans hy')
      obtain ⟨r, n, last, t, ht, hd⟩ := ih _ hj hz hfree hcancelled
      exact ⟨r, n, _, t, ht, .dated hd ho⟩

theorem derived_of_newly_ended (h : f.Sound) (hbefore : f.ended? k now = none)
    (hafter : (f.call (.cancel i)).ended? k now ≠ none) :
    ∃ r n last t, Derived f.origins r i 0 t ∧ Derived f.origins r k n last := by
  cases hx : f.made.contexts[i]? with
  | none =>
    rw [call, hx] at hafter
    exact absurd hbefore hafter
  | some x =>
    rw [call_cancel hx] at hafter
    obtain ⟨e, he⟩ := Option.ne_none_iff_exists'.1 hafter
    obtain ⟨y, hy, hend⟩ := Option.bind_eq_some_iff.1 he
    have hy' : f.made.contexts[k]? = some y := hy
    rw [ended?_eq hy', Contexts.ended?_eq_none] at hbefore
    obtain ⟨hfree, hin⟩ := hbefore
    refine derived_of_cancel h hx hy' hfree ?_
    -- the deadline of `y` is what it was, so only the cancellation can have ended it
    refine Decidable.byContradiction fun hstill => ?_
    exact absurd (hend.symm.trans (Contexts.ended?_eq_none.2 ⟨hstill, hin⟩)) nofun

/-! ### All runs -/

theorem after_append (earlier : List ContextCall) (q : ContextCall) (later : List ContextCall) :
    after (earlier ++ q :: later) = later.foldl call ((after earlier).call q) := by
  rw [after, List.foldl_append, List.foldl_cons, after]

theorem ended?_of_cancel {earlier : List ContextCall}
    (hi : i < (after earlier).made.contexts.length) (later : List ContextCall) (now : Instant) :
    (after (earlier ++ .cancel i :: later)).ended? i now = some .byCaller := by
  have hx := List.getElem?_eq_getElem hi
  have hsound := sound_after earlier
  obtain ⟨hend, hext⟩ := (hsound.becomes (becomes_call _ (.cancel i))).run later
  rw [call_cancel hx] at hend hext
  rw [after_append, call_cancel hx, ended?_eq (hext.getElem? hx), Contexts.ended?_eq_byCaller]
  have hflag := (Contexts.flagged_cancel (hsound.made.scope_lt _ _ hx)).2 (.inr rfl)
  exact Contexts.scopeCancelled_of_flagged hend.made.ordered (hext.flagged _ hflag)

/-- Cancelling a context ends it for good with all that are derived from it, and no others but its
copies with another deadline and what is derived from those. A context that has ended in any way has
ended with all that are derived from it, unless a deadline was set on the way and the last one is
still to come. -/
theorem ends_with_ancestor (calls : List ContextCall) :
    let f := after calls
    (∀ i k n last now, Derived f.origins i k n last →
      (f.ended? i now = some .byCaller → f.ended? k now = some .byCaller) ∧
      (f.ended? i now ≠ none → (∀ t, last = some t → t ≤ now) → f.ended? k now ≠ none)) ∧
    (∀ earlier i later now, calls = earlier ++ .cancel i :: later →
      i < (after earlier).made.contexts.length → f.ended? i now = some .byCaller) ∧
    (∀ i k now, f.ended? k now = none → (f.call (.cancel i)).ended? k now ≠ none →
      ∃ r n last t, Derived f.origins r i 0 t ∧ Derived f.origins r k n last) := by
  have hsound := sound_after calls
  refine ⟨fun i k n last now hd => ⟨ended?_of_cancelled hsound hd, fun hi hlast => ?_⟩, ?_,
    fun i k now => derived_of_newly_ended hsound⟩
  · exact ended?_of_ended hsound hd hlast hi
  · rintro earlier i later now rfl hi
    exact ended?_of_cancel hi later now

namespace Sample

/-- A context with a deadline after five seconds, and a child that is given ten. -/
def extended : List ContextCall :=
  [.background, .deadline 0 ⟨5, 0⟩, .child 1, .timeout 2 3000000000 ⟨7, 0⟩]

theorem derived_extended : Derived (after extended).origins 1 3 1 (some ⟨10, 0⟩) :=
  .dated (.child .self rfl) rfl

theorem outlives_ancestor : Derived (after extended).origins 1 3 1 (some ⟨10, 0⟩) ∧
    (after extended).ended? 1 ⟨7, 0⟩ = some .deadlineExceeded ∧
    (after extended).ended? 3 ⟨7, 0⟩ = none := by
  refine ⟨derived_extended, ?_, ?_⟩ <;> decide +kernel

/-- Once the later deadline is past too, and once the ancestor is cancelled, the child is done. -/
theorem ends_with_ancestor_extended :
    (after extended).ended? 3 ⟨10, 0⟩ ≠ none ∧
    (after (extended ++ [.cancel 1])).ended? 3 ⟨7, 0⟩ = some .byCaller ∧
    ∃ r n last t, Derived (after extended).origins r 1 0 t ∧
      Derived (after extended).origins r 3 n last := by
  refine ⟨((ends_with_ancestor extended).1 1 3 1 _ ⟨10, 0⟩ derived_extended).2 (by decide +kernel)
      (fun t ht => by cases ht; decide),
    ((ends_with_ancestor (extended ++ [.cancel 1])).1 1 3 1 _ ⟨7, 0⟩ derived_extended).1
      ((ends_with_ancestor (extended ++ [.cancel 1])).2.1 extended 1 [] ⟨7, 0⟩ rfl (by decide)),
    (ends_with_ancestor extended).2.2 1 3 ⟨7, 0⟩ (by decide +kernel) (by decide +kernel)⟩

end Sample

end Family

end AccessControl
