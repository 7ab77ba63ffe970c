import Reflash.Plan.ChangeMap

/-!
# Plans

A `Plan` says which blocks have to be processed to turn the old contents of a chip
into the new ones.

* `Plan.prepare`: the plan for a given extent.
* `Plan.make`: the plan for the extent that a mode asks for.
-/

namespace Reflash

/-- What to process to turn `old` into `new`. -/
structure Plan where
  old : Image
  new : Image
  /-- Finest blocks first, blocks of one size in the order of their addresses. -/
  units : List ProcessingUnit
deriving Repr

namespace Plan

/-- There is nothing to do. -/
def isEmpty (p : Plan) : Bool := p.units.isEmpty

/-- The bytes of all units. -/
def totalBytes (p : Plan) : Nat := p.units.foldr (fun u n => u.size + n) 0

/-- The blocks of all units in the order in which they are processed. -/
def blocks (p : Plan) : List Block := p.units.flatMap ProcessingUnit.blocks

end Plan

/-- How far the erasers of a plan have to reach. -/
inductive ExtentMode where
  /-- Up to the last byte that differs. -/
  | diff
  /-- Over the whole chip. -/
  | wholeChip
deriving DecidableEq, Repr, Inhabited

/-- The bytes that every eraser has to cover. -/
def requiredExtent (old new : Image) : ExtentMode → Nat
  | .diff => ((Image.lastDiffering? old new).map (· + 1)).getD 0
  | .wholeChip => old.size

/-- Refuses an image that has not the size of the chip. -/
def Chip.checkImage (chip : Chip) (m : Image) : Except FlashError Unit :=
  if m.size = chip.totalSize then .ok () else .error (.sizeMismatch chip.totalSize m.size)

/-- The change maps of a comparison, folded. -/
def ChangeMap.compare (chip : Chip) (erasers : List Eraser) (old new : Image) : List ChangeMap :=
  match ChangeMap.build chip.totalSize erasers with
  | [] => []
  | finest :: coarser =>
    ChangeMap.settle (ChangeMap.promote (finest.fill old new chip.erasedValue :: coarser))

variable {σ : Type}

namespace Plan

/-- The plan for turning `old` into `new` with erasers that cover `extent` bytes. -/
def prepare (chip : Chip) (old new : Image) (extent : Nat) (filter : EraserFilter σ) :
    Task σ FlashError Plan := do
  chip.checkImage old
  chip.checkImage new
  let erasers ← selectErasers chip extent filter
  let units := ChangeMap.units (ChangeMap.compare chip erasers old new)
  note (.planMade units.length)
  notes (units.map .planUnit)
  pure ⟨old, new, units⟩

/-- The plan for turning `old` into `new` with the extent that the mode asks for. -/
def make (chip : Chip) (old new : Image) (mode : ExtentMode) (filter : EraserFilter σ) :
    Task σ FlashError Plan :=
  prepare chip old new (requiredExtent old new mode) filter

end Plan

end Reflash
