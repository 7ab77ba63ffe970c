import Reflash.Span
import Reflash.Text.Hex

/-!
# Processing units

A plan is a list of processing units. A unit is a run of blocks of one erase
function that all need work.
-/

namespace Reflash

/-- One block of a plan, to be erased by one command if it has to be erased. -/
structure Block where
  start : Nat
  size : Nat
  /-- The erase function that erases it. -/
  function : Nat
deriving DecidableEq, Repr, Inhabited

/-- The addresses of a block. -/
def Block.span (b : Block) : Span := ⟨b.start, b.size⟩

/-- A run of consecutive blocks of one erase granularity that need work. -/
structure ProcessingUnit where
  blockSize : Nat
  /-- The start of the first block. -/
  offset : Nat
  blockCount : Nat
  /-- The erase function of the blocks. -/
  function : Nat
  /-- The region of that function which the block size comes from. -/
  region : Nat
deriving DecidableEq, Repr, Inhabited

namespace ProcessingUnit

/-- The bytes of the unit. -/
def size (u : ProcessingUnit) : Nat := u.blockSize * u.blockCount

/-- The first address behind the unit. -/
def stop (u : ProcessingUnit) : Nat := u.offset + u.size

/-- The addresses of the unit. -/
def span (u : ProcessingUnit) : Span := ⟨u.offset, u.size⟩

/-- The blocks of the unit in the order of their addresses. -/
def blocks (u : ProcessingUnit) : List Block :=
  (List.range u.blockCount).map fun i => ⟨u.offset + i * u.blockSize, u.blockSize, u.function⟩

/-- The unit as it is printed. -/
def text (u : ProcessingUnit) : String :=
  let range := s!"{Text.address u.offset}..{Text.address u.stop}"
  s!"{range} {Text.short u.blockSize} x {u.blockCount} (eraser {u.function}, region {u.region})"

end ProcessingUnit

end Reflash
