import Reflash.Error.Execution

/-!
# Errors of whole operations

Reading, planning, executing and verifying can fail. After a failed execution the
chip is assessed, because it may hold neither the old nor the new contents.
-/

namespace Reflash

/-- The state of the chip after a failed execution. -/
inductive Assessment where
  /-- The chip holds the old contents. -/
  | nothingChanged
  /-- The chip holds other contents. -/
  | partiallyWritten
  /-- The chip could not be read. -/
  | unreadable
  /-- The old contents were never read, so there is nothing to compare with. -/
  | unknown
deriving DecidableEq, Repr

namespace Assessment

/-- The chip may hold neither the old nor the new contents. -/
def isDangerous : Assessment → Bool
  | nothingChanged => false
  | _ => true

/-- The state in words. -/
def text : Assessment → String
  | nothingChanged => "chip contents unchanged"
  | partiallyWritten => "chip partially written"
  | unreadable => "chip unreadable"
  | unknown => "chip state unknown"

/-- What to do about it. -/
def advice : Assessment → String
  | nothingChanged =>
    "Writing to the flash chip apparently didn't do anything. Check the connections and any " ++
      "write protection between the programmer and the chip, then try again."
  | _ =>
    "The flash chip is in an unknown state. Do not power off or reboot before it has been " ++
      "reprogrammed successfully, or restore a backup with an external programmer."

end Assessment

/-- Why a whole operation failed. -/
inductive OperationError where
  /-- The old contents could not be read; the chip was not touched. -/
  | read (cause : FlashError)
  /-- No plan could be made; the chip was not touched. -/
  | plan (cause : FlashError)
  /-- The execution failed part way. -/
  | execute (cause : ExecutionError) (assessment : Assessment)
  /-- The execution was completed, but the contents are wrong. -/
  | verify (cause : ExecutionError)
deriving DecidableEq, Repr

namespace OperationError

/-- The chip may be in an unknown state. -/
def isDangerous : OperationError → Bool
  | read _ | plan _ => false
  | execute _ assessment => assessment.isDangerous
  | verify _ => true

/-- The error in words. -/
def message : OperationError → String
  | read e => s!"failed to read chip: {e.message}"
  | plan e => s!"failed to plan: {e.message}"
  | execute e _ => e.message
  | verify e => s!"verification failed: {e.message}"

/-- What led to the error, in words, the nearest cause first. -/
def causes : OperationError → List String
  | read e | plan e => [e.message]
  | execute e _ | verify e => e.message :: e.causes

/-- The assessment to advise upon: a completed but wrong execution counts as partial. -/
def assessment : OperationError → Assessment
  | execute _ assessment => assessment
  | _ => .partiallyWritten

end OperationError

end Reflash
