import AccessControl.Proofs.Token.Changes

/-!
# Scripts

What is done to a manager and its backend, one thing after the other, with the clock set to any time in
between. Unlike in `Runs` it may be set back. `b.after m l` is the backend that a script leaves.
-/

namespace AccessControl

/-- A request is served, or the clock is set. -/
inductive TokenStep
  | request (q : TokenRequest)
  | clock (t : Instant)

namespace TokenStep

def isSweep : TokenStep → Bool
  | request .sweep => true
  | _ => false

/-- What a clock shows after the step. -/
def time (now : Instant) : TokenStep → Instant
  | request _ => now
  | clock t => t

/-- The value that the step presents. -/
def value? : TokenStep → Option String
  | request (.verify value) | request (.refresh value) | request (.revoke value) => some value
  | _ => none

end TokenStep

/-- A sweep of the script finds the clock at `time` or later. -/
def sweptPast (time : Instant) : Instant → List TokenStep → Bool
  | _, [] => false
  | now, s :: script => (s.isSweep && time ≤ now) || sweptPast time (s.time now) script

namespace Backend

def step (m : TokenManager) (b : Backend) : TokenStep → Backend
  | .request q => (b.serve m q).2
  | .clock t => { b with clock := t }

/-- What a request is answered; a sweep reports to nobody. -/
def replies (m : TokenManager) (b : Backend) : List TokenStep → List (Outcome TokenReply)
  | [] => []
  | .clock t :: script => replies m (step m b (.clock t)) script
  | .request q :: script =>
    if (TokenStep.request q).isSweep then replies m (step m b (.request q)) script
    else (b.serve m q).1 :: replies m (step m b (.request q)) script

/-- The backend after the steps of a script. -/
def after (m : TokenManager) (b : Backend) (script : List TokenStep) : Backend :=
  script.foldl (step m) b

theorem clock_run {α : Type} (p : Procedure α) (b : Backend) : (b.run p).2.clock = b.clock := by
  induction p generalizing b with
  | done a => rfl
  | abort => rfl
  | ask q bound next ih => exact (ih _ _).trans (answer_clock b q)

theorem clock_exec {α : Type} {x : Operation α} {o : Outcome (Except TokenError α)}
    {b b' : Backend} (h : b.exec x = (o, b')) : b'.clock = b.clock := by
  have hclock := clock_run x.run b
  rwa [← exec, h] at hclock

variable {m : TokenManager}

@[simp] theorem after_nil (b : Backend) : b.after m [] = b := rfl

@[simp] theorem after_cons (b : Backend) (s : TokenStep) (script : List TokenStep) :
    b.after m (s :: script) = (b.step m s).after m script := rfl

/-- Nothing but setting it moves the clock. -/
theorem clock_step (b : Backend) (s : TokenStep) : (b.step m s).clock = s.time b.clock := by
  cases s with
  | request q => exact clock_run (m.serve q) b
  | clock t => rfl

theorem supply_step (b : Backend) (s : TokenStep) : (b.step m s).supply = b.supply := by
  cases s with
  | request q => exact TokenManager.Changes.supply_eq (TokenManager.changes_serve m q b)
  | clock t => rfl

theorem drawn_le_step (b : Backend) (s : TokenStep) : b.drawn ≤ (b.step m s).drawn := by
  cases s with
  | request q => exact TokenManager.Changes.drawn_le (TokenManager.changes_serve m q b)
  | clock t => exact Nat.le_refl _

theorem supply_after (b : Backend) (script : List TokenStep) :
    (b.after m script).supply = b.supply := by
  induction script generalizing b with
  | nil => rfl
  | cons s script ih => exact (ih (b.step m s)).trans (supply_step b s)

theorem drawn_le_after (b : Backend) (script : List TokenStep) :
    b.drawn ≤ (b.after m script).drawn := by
  induction script generalizing b with
  | nil => exact Nat.le_refl _
  | cons s script ih => exact Nat.le_trans (drawn_le_step b s) (ih (b.step m s))

end Backend

end AccessControl
