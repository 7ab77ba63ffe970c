import Reflash.Error.Operation
import Reflash.Reading

/-!
# Assessing a failed execution

After a failure the chip is read back and compared with what it held before.
-/

namespace Reflash

variable {σ : Type}

/-- What state the chip is in, given what it held before the failed execution. -/
def assessFailure (d : Device σ) (chip : Chip) (before : Image) :
    StateM (Session σ) Assessment := do
  note .assessing
  match ← unreported (readImage d chip).run with
  | .error e =>
    note (.unreadable e)
    pure .unreadable
  | .ok after =>
    if after = before then
      note .nothingChanged
      pure .nothingChanged
    else
      note .somethingChanged
      pure .partiallyWritten

end Reflash
