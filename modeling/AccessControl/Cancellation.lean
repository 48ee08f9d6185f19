import AccessControl.Time.Instant

/-!
# Cancelled requests

A request can be given up by its caller or run past its deadline. `Contexts` is the forest in which
requests derive contexts from one another: a child is cancelled with its parent, and a deadline is
handed down when a context is derived and can be replaced. `race` says what becomes of an operation
under a context that may have ended.
-/

namespace AccessControl

inductive Cancelled
  | byCaller
  | deadlineExceeded
  deriving DecidableEq, Repr

def Cancelled.message : Cancelled → String
  | .byCaller => "operation cancelled by caller"
  | .deadlineExceeded => "operation deadline exceeded"

def Cancelled.kind : Cancelled → String
  | .byCaller => "Cancelled.ByCaller"
  | .deadlineExceeded => "Cancelled.DeadlineExceeded"

/-- What an operation does when it is first looked at. -/
inductive Progress (α : Type)
  | ready (a : α)
  | pending

/-- An operation under a context: one that is done keeps its result, one that waits is given up if
the context has ended and waits on (`none`) otherwise. -/
def race {α : Type} (ended : Option Cancelled) : Progress α → Option (Except Cancelled α)
  | .ready a => some (.ok a)
  | .pending => ended.map .error

/-- A context: where it stands in the forest of cancellations, and its deadline. -/
structure Context where
  scope : Nat
  deadline : Option Instant
  deriving DecidableEq, Repr

/-- A node of the forest of cancellations; a parent is older than its children. -/
structure Scope where
  parent : Option Nat
  cancelled : Bool
  deriving DecidableEq, Repr

/-- All contexts and scopes so far, in order of creation. -/
structure Contexts where
  scopes : List Scope
  contexts : List Context
  deriving DecidableEq, Repr

theorem getElem?_concat_eq_some {α : Type} {xs : List α} {x y : α} {i : Nat} :
    (xs ++ [x])[i]? = some y ↔ xs[i]? = some y ∨ (i = xs.length ∧ y = x) := by
  rcases Nat.lt_trichotomy i xs.length with hlt | rfl | hgt
  · rw [List.getElem?_append_left hlt]
    simp [Nat.ne_of_lt hlt]
  · simp [eq_comm]
  · rw [List.getElem?_eq_none (by simpa using Nat.succ_le_of_lt hgt),
      List.getElem?_eq_none (Nat.le_of_lt hgt)]
    simp [Nat.ne_of_gt hgt]

namespace Contexts

/-- One context in the background: never cancelled so far, without a deadline. -/
def background : Contexts := ⟨[⟨none, false⟩], [⟨0, none⟩]⟩

/-- A context that depends on no other. -/
def fresh (c : Contexts) : Contexts :=
  ⟨c.scopes ++ [⟨none, false⟩], c.contexts ++ [⟨c.scopes.length, none⟩]⟩

/-- A context that is cancelled with `x`, and may be cancelled alone. -/
def child (c : Contexts) (x : Context) : Contexts :=
  ⟨c.scopes ++ [⟨some x.scope, false⟩], c.contexts ++ [⟨c.scopes.length, x.deadline⟩]⟩

/-- `x` with another deadline, cancelled together with `x`. -/
def withDeadline (c : Contexts) (x : Context) (deadline : Instant) : Contexts :=
  { c with contexts := c.contexts ++ [{ x with deadline := some deadline }] }

/-- Cancels a context, and with it all that stand below it. -/
def cancel (c : Contexts) (x : Context) : Contexts :=
  { c with scopes := c.scopes.modify x.scope fun s => { s with cancelled := true } }

/-- A scope is cancelled if it or one it stands below was. -/
def scopeCancelled (c : Contexts) (i : Nat) : Bool :=
  match c.scopes[i]? with
  | none => false
  | some s => s.cancelled || match s.parent with
    | none => false
    | some p => if p < i then c.scopeCancelled p else false
termination_by i

/-- How a context has ended at a reading of the time; cancellation is looked at first. -/
def ended? (c : Contexts) (x : Context) (now : Instant) : Option Cancelled :=
  if c.scopeCancelled x.scope then some .byCaller
  else match x.deadline with
    | some d => if d ≤ now then some .deadlineExceeded else none
    | none => none

/-! ### One scope at a time -/

variable {c : Contexts} {s p : Nat}

def parent? (c : Contexts) (s : Nat) : Option Nat := c.scopes[s]?.bind Scope.parent

/-- A scope was cancelled itself, not only with one that it stands below. -/
def flagged (c : Contexts) (s : Nat) : Bool := c.scopes[s]?.any Scope.cancelled

/-- Parents are older than their children. -/
def Ordered (c : Contexts) : Prop := ∀ ⦃s p⦄, c.parent? s = some p → p < s

theorem scopeCancelled_iff (hc : c.Ordered) :
    c.scopeCancelled s ↔ c.flagged s ∨ ∃ p, c.parent? s = some p ∧ c.scopeCancelled p := by
  rw [scopeCancelled]
  cases hs : c.scopes[s]? with
  | none => simp [flagged, parent?, hs]
  | some scope =>
    cases hp : scope.parent with
    | none => simp [flagged, parent?, hs, hp]
    | some p =>
      have hlt : p < s := hc (by rw [parent?, hs, Option.bind_some, hp])
      simp [flagged, parent?, hs, hp, hlt]

theorem scopeCancelled_of_flagged (hc : c.Ordered) (h : c.flagged s) : c.scopeCancelled s :=
  (scopeCancelled_iff hc).2 (.inl h)

theorem scopeCancelled_of_parent (hc : c.Ordered) (hp : c.parent? s = some p)
    (h : c.scopeCancelled p) : c.scopeCancelled s :=
  (scopeCancelled_iff hc).2 (.inr ⟨p, hp, h⟩)

@[simp] theorem parent?_cancel (x : Context) : (c.cancel x).parent? s = c.parent? s := by
  simp only [parent?, cancel, List.getElem?_modify]
  cases c.scopes[s]? with
  | none => rfl
  | some scope => simp only [Option.bind_some]; split <;> rfl

theorem flagged_cancel {x : Context} (hx : x.scope < c.scopes.length) :
    (c.cancel x).flagged s ↔ c.flagged s ∨ s = x.scope := by
  simp only [flagged, cancel, List.getElem?_modify]
  by_cases hs : x.scope = s
  · subst hs
    simp [List.getElem?_eq_getElem hx]
  · cases c.scopes[s]? with
    | none => simp [hs, Ne.symm hs]
    | some scope => simp [hs, Ne.symm hs]

theorem ended?_eq_byCaller {x : Context} {now : Instant} :
    c.ended? x now = some .byCaller ↔ c.scopeCancelled x.scope := by
  unfold ended?
  split
  next h => simp [h]
  next h => cases x.deadline <;> simp [h]

theorem ended?_eq_none {x : Context} {now : Instant} :
    c.ended? x now = none ↔ ¬c.scopeCancelled x.scope ∧ ∀ d, x.deadline = some d → ¬d ≤ now := by
  unfold ended?
  split
  next h => simp [h]
  next h => cases x.deadline <;> simp [h]

end Contexts

end AccessControl
