import Reflash.Chip.Basic
import Reflash.Session

/-!
# Reading a chip

A chip is read in pieces, so that progress can be reported.

* `readChip`: the first bytes of the chip; what could not be read is zero.
* `readImage`: the whole chip, or the error.
-/

namespace Reflash

/-- The chip is read in pieces of this size. -/
def readPieceSize : Nat := 4096

variable {σ : Type}

/-- Reads piece after piece and appends it to what was read before. -/
def readPieces (d : Device σ) :
    List Span → Image → StateM (Session σ) (Except FlashError Unit × Image)
  | [], bytes => pure (.ok (), bytes)
  | p :: ps, bytes => do
    match ← (Device.ask (d.read p.start p.len)).run with
    | .error e => pure (.error e, bytes)
    | .ok piece =>
      report (.readProgress p.stop)
      readPieces d ps (bytes ++ piece.toArray)

/-- Reads the first `n` bytes of the chip. Gives the outcome and `n` bytes, of which those that
were not read are zero. -/
def readChip (d : Device σ) (n : Nat) : StateM (Session σ) (Except FlashError Unit × Image) := do
  report (.reading n)
  let (r, bytes) ← readPieces d (Span.pieces ⟨0, n⟩ readPieceSize) #[]
  pure (r, Image.resize bytes n)

/-- Reads the whole chip. -/
def readImage (d : Device σ) (chip : Chip) : Task σ FlashError Image := do
  let (r, image) ← readChip d chip.totalSize
  match r with
  | .ok () => pure image
  | .error e => throw e

end Reflash
