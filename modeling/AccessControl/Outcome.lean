/-!
# How a call ends
-/

theorem Except.map_eq_ok {ε α β : Type} {f : α → β} {x : Except ε α} {b : β} :
    x.map f = .ok b ↔ ∃ a, x = .ok a ∧ f a = b := by
  cases x <;> simp [Except.map]

theorem Except.bind_eq_ok {ε α β : Type} {f : α → Except ε β} {x : Except ε α} {b : β} :
    x >>= f = .ok b ↔ ∃ a, x = .ok a ∧ f a = .ok b := by
  cases x <;> simp [bind, Except.bind]

namespace AccessControl

/-- A call ends with a result, or is broken off because a time is not representable, or never ends
because it waits for an answer that does not come. -/
inductive Outcome (α : Type)
  | done (a : α)
  | aborted
  | stuck
  deriving DecidableEq, Repr

namespace Outcome

variable {α β : Type}

def map (f : α → β) : Outcome α → Outcome β
  | done a => done (f a)
  | aborted => aborted
  | stuck => stuck

theorem map_eq_done {f : α → β} {o : Outcome α} {c : β} :
    o.map f = done c ↔ ∃ a, o = done a ∧ f a = c := by
  cases o <;> simp [map]

end Outcome

end AccessControl
