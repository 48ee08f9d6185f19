/-!
# Moments

A moment is a count of seconds since 1970 with a fraction; inside a leap second the fraction is one
second or more. Moments are ordered by seconds and then fraction, and arithmetic that leaves the
representable years has no result.
-/

namespace AccessControl

/-- A moment of coordinated universal time. -/
structure Instant where
  seconds : Int
  nanos : Nat
  deriving DecidableEq, Repr, Inhabited

namespace Instant

instance : LE Instant :=
  ⟨fun a b => a.seconds < b.seconds ∨ (a.seconds = b.seconds ∧ a.nanos ≤ b.nanos)⟩

instance : LT Instant :=
  ⟨fun a b => a.seconds < b.seconds ∨ (a.seconds = b.seconds ∧ a.nanos < b.nanos)⟩

theorem le_def {a b : Instant} :
    a ≤ b ↔ a.seconds < b.seconds ∨ (a.seconds = b.seconds ∧ a.nanos ≤ b.nanos) := .rfl

theorem lt_def {a b : Instant} :
    a < b ↔ a.seconds < b.seconds ∨ (a.seconds = b.seconds ∧ a.nanos < b.nanos) := .rfl

instance (a b : Instant) : Decidable (a ≤ b) := decidable_of_iff _ le_def.symm
instance (a b : Instant) : Decidable (a < b) := decidable_of_iff _ lt_def.symm

theorem seconds_le {a b : Instant} (h : a ≤ b) : a.seconds ≤ b.seconds := by
  rw [le_def] at h; omega

theorem le_refl (a : Instant) : a ≤ a := .inr ⟨rfl, Nat.le_refl _⟩

theorem le_trans {a b c : Instant} (h : a ≤ b) (h' : b ≤ c) : a ≤ c := by
  simp only [le_def] at *; omega

theorem lt_of_lt_of_le {a b c : Instant} (h : a < b) (h' : b ≤ c) : a < c := by
  simp only [le_def, lt_def] at *; omega

theorem lt_of_le_of_lt {a b c : Instant} (h : a ≤ b) (h' : b < c) : a < c := by
  simp only [le_def, lt_def] at *; omega

theorem not_le {a b : Instant} : ¬a ≤ b ↔ b < a := by
  simp only [le_def, lt_def]; omega

theorem not_lt {a b : Instant} : ¬a < b ↔ b ≤ a := by
  simp only [le_def, lt_def]; omega

theorem le_of_lt {a b : Instant} (h : a < b) : a ≤ b := by
  simp only [le_def, lt_def] at *; omega

theorem le_antisymm {a b : Instant} (h : a ≤ b) (h' : b ≤ a) : a = b := by
  cases a; cases b; simp only [le_def, mk.injEq] at *; omega

theorem le_total (a b : Instant) : a ≤ b ∨ b ≤ a := by
  simp only [le_def]; omega

def latest (a b : Instant) : Instant := if a < b then b else a

@[simp] theorem latest_self (a : Instant) : a.latest a = a := by
  unfold latest
  split <;> rfl

theorem latest_of_lt {a b : Instant} (h : a < b) : a.latest b = b := if_pos h

theorem le_latest_left (a b : Instant) : a ≤ a.latest b := by
  unfold latest
  split
  · next h => exact le_of_lt h
  · exact le_refl a

theorem le_latest_right (a b : Instant) : b ≤ a.latest b := by
  unfold latest
  split
  · exact le_refl b
  · next h => exact not_lt.1 h

theorem latest_eq_or (a b : Instant) : a.latest b = a ∨ a.latest b = b := by
  unfold latest
  split
  · exact .inr rfl
  · exact .inl rfl

/-- The first second of the first representable year, -262143. -/
def minSeconds : Int := -8334601228800

/-- The last second of the last representable year, 262142. -/
def maxSeconds : Int := 8210266876799

def ofSeconds? (s : Int) : Option Instant :=
  if minSeconds ≤ s ∧ s ≤ maxSeconds then some ⟨s, 0⟩ else none

def nanosPerSecond : Int := 1000000000

/-- The moment `n` nanoseconds after 1970 began. -/
def ofNanos? (n : Int) : Option Instant :=
  let s := n / nanosPerSecond
  if minSeconds ≤ s ∧ s ≤ maxSeconds then some ⟨s, (n % nanosPerSecond).toNat⟩ else none

def ofMillis? (ms : Int) : Option Instant := ofNanos? (ms * 1000000)

/-- Nanoseconds since 1970 began, a leap second counting as the second after it. -/
def toNanos (a : Instant) : Int := a.seconds * nanosPerSecond + a.nanos

/-- The reading that a change by `n` starts from: a leap second that is left towards the future
counts as the second before it, one that is left towards the past as the second after it. -/
def outsideLeap (a : Instant) (n : Int) : Instant :=
  if a.nanos < 1000000000 then a
  else if 0 < n then ⟨a.seconds, a.nanos - 1000000000⟩
  else if n < 0 then ⟨a.seconds + 1, a.nanos - 1000000000⟩
  else a

/-- A change by `ms` milliseconds does not lead out of the leap second that `a` lies in. -/
def staysInLeap (a : Instant) (ms : Int) : Bool :=
  1000000000 ≤ a.nanos && Int.tdiv ms 1000 == 0 && (a.nanos + ms * 1000000 < 2000000000)

/-- `a` moved by a number of milliseconds, if that is representable. -/
def addMillis? (a : Instant) (ms : Int) : Option Instant :=
  if a.staysInLeap ms then some { a with nanos := (a.nanos + ms * 1000000).toNat }
  else ofNanos? ((a.outsideLeap ms).toNanos + ms * 1000000)

/-- The last second that a steady clock counts to, in 64 bits with a sign. -/
def maxSteadySeconds : Int := 9223372036854775807

/-- The moment `n` nanoseconds after `a` on a steady clock, which knows no leap seconds and counts
from a start of its own. -/
def later? (a : Instant) (n : Nat) : Option Instant :=
  let sum := a.toNanos + n
  if sum / nanosPerSecond ≤ maxSteadySeconds then
    some ⟨sum / nanosPerSecond, (sum % nanosPerSecond).toNat⟩
  else none

/-- `now` comes before `ms` milliseconds have passed since `a`. -/
def WithinMillis (ms : Int) (a now : Instant) : Prop := ∃ b, a.addMillis? ms = some b ∧ now < b

/-- `a` moved by whole seconds, if that is representable. -/
def addSeconds? (a : Instant) (s : Int) : Option Instant :=
  let b := a.outsideLeap s
  if minSeconds ≤ b.seconds + s ∧ b.seconds + s ≤ maxSeconds then
    some { b with seconds := b.seconds + s }
  else none

/-- The whole second that `a` lies in; before 1970 too this is not after `a`. -/
def wholeSecond (a : Instant) : Instant := { a with nanos := a.nanos - a.nanos % 1000000000 }

def secondsPerDay : Int := 86400

def secondOfDay (a : Instant) : Int := a.seconds % secondsPerDay

def hour (a : Instant) : Nat := (a.secondOfDay / 3600).toNat

/-- The whole seconds from `b` to `a`, a fraction dropped towards zero. A leap second on the side
that stands earlier in its day is counted. -/
def secondsSince (a b : Instant) : Int :=
  let leap : Int :=
    if b.secondOfDay < a.secondOfDay then (if 1000000000 ≤ b.nanos then 1 else 0)
    else if a.secondOfDay < b.secondOfDay then (if 1000000000 ≤ a.nanos then -1 else 0)
    else 0
  Int.tdiv (a.toNanos - b.toNanos + leap * nanosPerSecond) nanosPerSecond

/-- Steps that in turn take a clock from `now` to `time now s` never set it back. -/
def Forward {σ : Type} (time : Instant → σ → Instant) : Instant → List σ → Prop
  | _, [] => True
  | now, s :: l => now ≤ time now s ∧ Forward time (time now s) l

section Forward

variable {σ : Type} {time : Instant → σ → Instant} {now : Instant} {l l' : List σ}

theorem Forward.le_foldl (h : Forward time now l) : now ≤ l.foldl time now := by
  induction l generalizing now with
  | nil => exact le_refl now
  | cons s l ih => exact le_trans h.1 (ih h.2)

theorem Forward.of_append (h : Forward time now (l ++ l')) : Forward time (l.foldl time now) l' := by
  induction l generalizing now with
  | nil => exact h
  | cons s l ih => exact ih h.2

end Forward

end Instant

end AccessControl
