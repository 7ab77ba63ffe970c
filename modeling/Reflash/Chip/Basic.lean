import Reflash.Chip.EraseFunction
import Reflash.Chip.Granularity

/-!
# Flash chips

What planning and execution have to know about a chip: its size, the value of an
erased byte, how writes are chunked and which erase functions it has. `defect?`
checks that the erase layouts agree with the size.

* `validate_eq_ok_iff`: a chip passes exactly if it has no defect.
-/

namespace Reflash

/-- A flash chip. -/
structure Chip where
  vendor : String
  name : String
  /-- Size in bytes. -/
  totalSize : Nat
  /-- Chunk in which contents are read back and checked. -/
  pageSize : Nat := 256
  /-- What every byte reads as after an erase. -/
  erasedValue : UInt8 := 0xFF
  granularity : Granularity := .bytes256
  /-- The erase functions in the chip's own order. -/
  eraseFunctions : List EraseFunction := []
deriving DecidableEq, Repr, Inhabited

/-- What can be wrong with the description of a chip. -/
inductive ChipDefect where
  | zeroSize
  | tooManyEraseFunctions (count : Nat)
  /-- Blocks of size zero, or a block size but no blocks. -/
  | emptyRegion (function region : Nat)
  /-- A function covers something, but not exactly the chip. -/
  | coverageMismatch (function covered : Nat)
deriving DecidableEq, Repr

namespace Chip

/-- A chip has at most this many erase functions. -/
def maxEraseFunctions : Nat := 8

/-- The first region of `f` that has a size without blocks or blocks without a size. -/
def emptyRegion? (f : EraseFunction) : Option Nat :=
  f.regions.findIdx? fun r => (r.size == 0) != (r.count == 0)

/-- The first defect of erase function number `i` on a chip of `size` bytes. -/
def functionDefect? (size : Nat) (f : EraseFunction) (i : Nat) : Option ChipDefect :=
  match emptyRegion? f with
  | some r => some (.emptyRegion i r)
  | none =>
    if f.total ≠ 0 ∧ f.total ≠ size then some (.coverageMismatch i f.total) else none

/-- The first defect of the chip. -/
def defect? (c : Chip) : Option ChipDefect :=
  if c.totalSize = 0 then some .zeroSize
  else if maxEraseFunctions < c.eraseFunctions.length then
    some (.tooManyEraseFunctions c.eraseFunctions.length)
  else c.eraseFunctions.zipIdx.findSome? fun (f, i) => functionDefect? c.totalSize f i

/-- Accepts a chip without defects. -/
def validate (c : Chip) : Except ChipDefect Unit :=
  match c.defect? with
  | some d => .error d
  | none => .ok ()

/-- A chip passes exactly if it has no defect. -/
theorem validate_eq_ok_iff {c : Chip} : c.validate = .ok () ↔ c.defect? = none := by
  unfold validate
  cases c.defect? <;> simp

end Chip

namespace ChipDefect

/-- The defect in words. -/
def message : ChipDefect → String
  | zeroSize => "chip size is zero"
  | tooManyEraseFunctions n =>
    s!"{n} erase functions defined, at most {Chip.maxEraseFunctions} supported"
  | emptyRegion f r => s!"erase function {f} region {r} has a zero size or zero count"
  | coverageMismatch f n => s!"erase function {f} covers {n} bytes instead of the chip size"

end ChipDefect

end Reflash
