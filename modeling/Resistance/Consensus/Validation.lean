import Resistance.Primitives.Transaction

/-! `CValidationState`, from `consensus/validation.h`: why a check did not return `true`. -/

namespace Resistance.Consensus

-- "reject" message codes
def rejectInvalid : UInt8 := 0x10
def rejectNonstandard : UInt8 := 0x40

/-- The ways in which validation code stops. -/
inductive Failure where
  /-- A network rule is violated. -/
  | invalid (nDoS : Int) (chRejectCode : UInt8) (strRejectReason : String)
      (corruptionPossible : Bool)
  /-- A run-time error of the node. -/
  | error (strRejectReason : String)
  /-- A C++ exception leaves the function. -/
  | exception (what : String)
  /-- A failed `assert` ends the process. -/
  | assertion (expression : String)
  /-- The C++ code has no defined behaviour here. -/
  | undefined
  deriving DecidableEq, Repr

/-- `CValidationState::DoS` on a fresh state. -/
def dos (level : Int) (chRejectCode : UInt8 := 0) (strRejectReason : String := "")
    (corruptionIn : Bool := false) : Failure :=
  .invalid level chRejectCode strRejectReason corruptionIn

/-- `CValidationState::CorruptionPossible`. -/
def Failure.corruptionPossible : Failure → Bool
  | .invalid _ _ _ corruptionPossible => corruptionPossible
  | _ => false

end Resistance.Consensus
