import Reflash.Text.Hex

/-!
# Errors of planning and of a device

What planning refuses and what a device or a check of its contents can report.
-/

namespace Reflash

/-- What comparing read contents with expected ones found. -/
structure Mismatch where
  /-- The lowest address that differs. -/
  address : Nat
  expected : UInt8
  found : UInt8
  /-- How many bytes differ. -/
  failCount : Nat
deriving DecidableEq, Repr

/-- The mismatch in words. -/
def Mismatch.message (m : Mismatch) : String :=
  let bytes := s!"expected {Text.byte m.expected}, found {Text.byte m.found}"
  s!"mismatch at {Text.address m.address}: {bytes} ({m.failCount} bytes differ)"

/-- Why a plan could not be made, or a device operation or check failed. -/
inductive FlashError where
  /-- The chip has no usable erase function. -/
  | noEraser
  /-- The erase function is missing, not executed by the chip, or refused by the controller. -/
  | eraserNotSupported (function : Nat)
  /-- An image has not the size of the chip. -/
  | sizeMismatch (expected actual : Nat)
  | invalidChip
  /-- The controller protects the range of an operation that starts at `address`. -/
  | accessDenied (address : Nat)
  /-- A byte was not erased by an erase. -/
  | eraseFailed (address : Nat) (found : UInt8)
  | writeFailed (address : Nat)
  /-- Read contents are not the expected ones. -/
  | verifyFailed (mismatch : Mismatch)
  /-- The chip stayed busy for longer than it is waited for. -/
  | timeout
  | readFailed
  | outOfBounds
  | misaligned
deriving DecidableEq, Repr

namespace FlashError

/-- The controller refused access to a protected range. -/
def isAccessDenied : FlashError → Bool
  | accessDenied _ => true
  | _ => false

/-- The error in words. -/
def message : FlashError → String
  | noEraser => "no erase function available for this chip"
  | eraserNotSupported f => s!"erase function {f} is not supported"
  | sizeMismatch expected actual =>
    s!"image size mismatch: chip has {expected} bytes, image has {actual}"
  | invalidChip => "invalid chip description"
  | accessDenied a => s!"access denied at {Text.address a}"
  | eraseFailed a found =>
    s!"erase verify failed at {Text.address a}: found {Text.byte found}"
  | writeFailed a => s!"write failed at {Text.address a}"
  | verifyFailed m => s!"verify failed: {m.message}"
  | timeout => "operation timed out"
  | readFailed => "read operation failed"
  | outOfBounds => "address out of bounds"
  | misaligned => "invalid alignment"

end FlashError

end Reflash
