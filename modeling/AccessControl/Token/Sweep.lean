import AccessControl.Token.Procedure

/-!
# Sweeps

A sweep drops what has expired from the revocation list and, where there is one, the token store.
What fails is counted and not repeated.
-/

namespace AccessControl

structure SweepReport where
  revocations : Nat
  records : Nat
  failures : Nat
  deriving DecidableEq, Repr

namespace SweepReport

/-- A call's share of the report: what it removed, and whether it failed. -/
def share : Except CallFault Nat → Nat × Nat
  | .ok n => (n, 0)
  | .error _ => (0, 1)

end SweepReport

def sweep (hasStore : Bool) : Procedure SweepReport := do
  let now ← Procedure.call .now
  let (revocations, failures) := SweepReport.share (← Procedure.call (.cleanupRevocations now))
  if hasStore then
    let (records, failures') := SweepReport.share (← Procedure.call (.cleanupRecords now))
    return ⟨revocations, records, failures + failures'⟩
  else return ⟨revocations, 0, failures⟩

end AccessControl
