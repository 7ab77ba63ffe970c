import Reflash.Plan.Eraser

/-!
# Change maps

A `ChangeMap` marks, for the blocks of one eraser, what each needs. The finest map
comes from comparing the images. Coarser maps are derived from the finer ones, and
the runs of marked blocks of every map become the units of a plan.

* `promote`: a block is erased as a whole if enough of the finer blocks in it need it.
* `settle`: what is in a block that is erased as a whole needs nothing of its own.
* `units`: the runs of marked blocks, finest blocks first.
-/

namespace Reflash

/-- What a block needs. -/
structure Mark where
  /-- Some byte holds data that has to be erased away. -/
  erase : Bool := false
  /-- Some byte has to become a value that is not the erased one. -/
  write : Bool := false
deriving DecidableEq, Repr, Inhabited

namespace Mark

/-- Nothing is needed. -/
def none : Mark := {}

/-- Something is needed. -/
def isSet (m : Mark) : Bool := m.erase || m.write

/-- What the bytes of a span need: those that change and are not erased have to be erased,
those that change to something not erased have to be written. -/
def ofDiff (old new : Image) (erased : UInt8) (s : Span) : Mark where
  erase := s.any fun i => Image.differsAt old new i && old.byte i != erased
  write := s.any fun i => Image.differsAt old new i && new.byte i != erased

end Mark

/-- The marks of the blocks of one eraser. -/
structure ChangeMap where
  eraser : Eraser
  /-- If more blocks than this need an erase within a block of the next coarser eraser, that
  block is erased instead. -/
  limit : Nat
  marks : Array Mark
deriving DecidableEq, Repr

namespace ChangeMap

/-- The share, in percent, of finer blocks that may need an erase before the block they are in
is erased as a whole. -/
def foldThreshold : Nat := 70

/-- The limit for blocks of `fine` bytes in a block of `coarse` bytes. -/
def foldLimit (fine coarse : Nat) : Nat := coarse / fine * foldThreshold / 100

/-- A map without marks. Only whole blocks of the chip have a mark. -/
def empty (e : Eraser) (coarser : Option Eraser) (chipSize : Nat) : ChangeMap where
  eraser := e
  limit := (coarser.map fun c => foldLimit e.blockSize c.blockSize).getD 0
  marks := Array.replicate (chipSize / e.blockSize) Mark.none

/-- One map without marks per eraser. -/
def build (chipSize : Nat) : List Eraser → List ChangeMap
  | [] => []
  | e :: es => empty e es.head? chipSize :: build chipSize es

/-- The size of the map's blocks. -/
def blockSize (m : ChangeMap) : Nat := m.eraser.blockSize

/-- The addresses of block number `i`. -/
def blockSpan (m : ChangeMap) (i : Nat) : Span := ⟨i * m.blockSize, m.blockSize⟩

/-- Marks the blocks by comparing the images; blocks that the images do not have keep their
marks. -/
def fill (m : ChangeMap) (old new : Image) (erased : UInt8) : ChangeMap :=
  let compared := min old.size new.size / m.blockSize
  { m with
    marks := m.marks.mapIdx fun i mark =>
      if i < compared then Mark.ofDiff old new erased (m.blockSpan i) else mark }

/-- The marks of the blocks whose last byte lies in block number `j` of `coarseSize` bytes. -/
def inside (m : ChangeMap) (coarseSize j : Nat) : Array Mark :=
  m.marks.extract (j * coarseSize / m.blockSize) ((j + 1) * coarseSize / m.blockSize)

/-- Marks the blocks in which more finer blocks need an erase than the finer map's limit. Such
a block needs a write if one of the finer blocks does. -/
def promoteFrom (finer m : ChangeMap) : ChangeMap :=
  { m with
    marks := m.marks.mapIdx fun j mark =>
      let finerMarks := finer.inside m.blockSize j
      if finer.limit < finerMarks.countP Mark.erase then
        { erase := true, write := finerMarks.any Mark.write }
      else mark }

/-- Promotes from `finer` into the first map, from the result into the second, and so on. -/
def promoteAll (finer : ChangeMap) : List ChangeMap → List ChangeMap
  | [] => []
  | m :: ms =>
    let m := promoteFrom finer m
    m :: promoteAll m ms

/-- Promotes dense changes into coarser blocks, finest map first. -/
def promote : List ChangeMap → List ChangeMap
  | [] => []
  | m :: ms => m :: promoteAll m ms

/-- Removes the marks of the blocks whose last byte lies in a block that `coarse` erases. -/
def clearInside (m coarse : ChangeMap) : ChangeMap :=
  { m with
    marks := m.marks.mapIdx fun i mark =>
      let j := ((i + 1) * m.blockSize - 1) / coarse.blockSize
      if coarse.marks[j]?.any Mark.erase then Mark.none else mark }

/-- Removes, coarsest map first, the marks inside blocks that are erased as a whole. -/
def settle : List ChangeMap → List ChangeMap
  | [] => []
  | m :: ms =>
    let coarser := settle ms
    coarser.foldr (fun c m => m.clearInside c) m :: coarser

/-- The unit of `n` blocks from block number `first` on. -/
def unit (m : ChangeMap) (first n : Nat) : ProcessingUnit :=
  ⟨m.blockSize, first * m.blockSize, n, m.eraser.function, m.eraser.region⟩

/-- The runs of marked blocks, as first block and length. The marks start with block number
`i`, before which `run` marked blocks are pending. -/
def runsFrom : List Mark → Nat → Nat → List (Nat × Nat)
  | [], i, run => if run = 0 then [] else [(i - run, run)]
  | m :: ms, i, run =>
    if m.isSet then runsFrom ms (i + 1) (run + 1)
    else if run = 0 then runsFrom ms (i + 1) 0
    else (i - run, run) :: runsFrom ms (i + 1) 0

/-- The units of one map in the order of their addresses. -/
def mapUnits (m : ChangeMap) : List ProcessingUnit :=
  (runsFrom m.marks.toList 0 0).map fun (first, n) => m.unit first n

/-- The units of all maps. -/
def units (maps : List ChangeMap) : List ProcessingUnit := maps.flatMap mapUnits

end ChangeMap

end Reflash
