import Reflash.Chip.Basic
import Reflash.Session

/-!
# The eraser catalog

An `Eraser` is an erase function that takes part in a plan with the block size of
one of its regions. The catalog picks at most one eraser per function, for a given
extent that every picked eraser has to cover, and sorts them by block size.

* `Candidates.add`: how one more function changes the catalog.
* `nesting`: the sizes that are kept divide each other.
* `selectErasers`: the whole selection, with a filter that may ask the device.
-/

namespace Reflash

/-- An erase function with the block size of one of its regions. -/
structure Eraser where
  function : Nat
  region : Nat
  blockSize : Nat
  blockSize_pos : 0 < blockSize
deriving DecidableEq, Repr

namespace Eraser

/-- The eraser with that block size, if the size is not zero. -/
def ofSize? (function region size : Nat) : Option Eraser :=
  if h : 0 < size then some ⟨function, region, size, h⟩ else none

/-- Inserts an eraser before the first one with larger blocks, or finds the eraser that has
its block size already. -/
def insert (e : Eraser) : List Eraser → Except Eraser (List Eraser)
  | [] => .ok [e]
  | x :: xs =>
    if x.blockSize < e.blockSize then (insert e xs).map (x :: ·)
    else if x.blockSize = e.blockSize then .error x
    else .ok (e :: x :: xs)

end Eraser

/-- An eraser and the bytes that its region covers. -/
structure Coverage where
  eraser : Eraser
  total : Nat
deriving DecidableEq, Repr

namespace Coverage

/-- The erasers that function number `i` offers, region after region. -/
def ofFunction (f : EraseFunction) (i : Nat) : List Coverage :=
  f.regions.zipIdx.filterMap fun (r, k) => (Eraser.ofSize? i k r.size).map fun e => ⟨e, r.total⟩

/-- The one that covers more; of two that cover the same, the first. -/
def larger (best : Option Coverage) (c : Coverage) : Option Coverage :=
  match best with
  | some b => if b.total < c.total then some c else some b
  | none => some c

end Coverage

/-- The erasers found so far. -/
structure Candidates where
  /-- Those that cover the extent, strictly ascending by block size. -/
  covering : List Eraser := []
  /-- The one that covers most of those that fall short. -/
  fallback : Option Coverage := none
deriving Repr

namespace Candidates

/-- Adds what one function offers. Its first region that covers the extent counts, unless its
block size is there already; the regions before it can only become the fallback. -/
def add (c : Candidates) (extent : Nat) (offers : List Coverage) : Candidates × List LogRecord :=
  let short := offers.takeWhile fun o => o.total < extent
  let fallback := short.foldl Coverage.larger c.fallback
  match offers.find? fun o => extent ≤ o.total with
  | none => (⟨c.covering, fallback⟩, [])
  | some o =>
    match o.eraser.insert c.covering with
    | .ok covering => (⟨covering, fallback⟩, [])
    | .error other =>
      (⟨c.covering, fallback⟩,
        [.functionDuplicated o.eraser.function o.eraser.blockSize other.function])

end Candidates

/-- Keeps the erasers whose blocks are made up of whole blocks of the last one kept, which at
first is `finer`. Folding clears finer blocks inside a coarser one; a block that straddled its
border would be cleared while only partly covered. -/
def nesting (finer : Eraser) : List Eraser → List Eraser × List LogRecord
  | [] => ([], [])
  | e :: es =>
    if e.blockSize % finer.blockSize = 0 then
      let (kept, notes) := nesting e es
      (e :: kept, notes)
    else
      let (kept, notes) := nesting finer es
      (kept, .functionNotNesting e.function e.blockSize finer.blockSize :: notes)

/-- Decides whether an erase function of a chip may be used. It is asked once per usable
function and may ask the device. -/
abbrev EraserFilter (σ : Type) := Chip → Nat → StateM (Session σ) Bool

variable {σ : Type}

namespace EraserFilter

/-- Allows every function. -/
def all : EraserFilter σ := fun _ _ => pure true

/-- Allows every function that is not listed. -/
def except (functions : List Nat) : EraserFilter σ := fun _ i => pure (!functions.contains i)

/-- Allows the functions with which the device would erase the whole chip. -/
def dryRun (d : Device σ) : EraserFilter σ := fun chip i => do
  match ← (Device.ask (d.eraseDryRun i 0 chip.totalSize)).run with
  | .ok () => pure true
  | .error e =>
    note (.functionDropped i e)
    pure false

end EraserFilter

/-- Adds the usable functions that the filter allows, one after the other. There is room for as
many erasers as a chip may have functions. -/
def gatherCandidates (chip : Chip) (extent : Nat) (filter : EraserFilter σ) :
    List (EraseFunction × Nat) → Candidates → Task σ FlashError Candidates
  | [], found => pure found
  | (f, i) :: rest, found => do
    if f.usable then
      if ← filter chip i then
        let (found, added) := found.add extent (Coverage.ofFunction f i)
        if Chip.maxEraseFunctions < found.covering.length then throw .invalidChip
        else
          notes added
          gatherCandidates chip extent filter rest found
      else gatherCandidates chip extent filter rest found
    else gatherCandidates chip extent filter rest found

/-- The erasers for an erase of `extent` bytes, strictly ascending by block size, each size a
multiple of the one before. If no function covers the extent, the eraser that covers most is
taken alone, and the erase may be incomplete. -/
def selectErasers (chip : Chip) (extent : Nat) (filter : EraserFilter σ) :
    Task σ FlashError (List Eraser) := do
  let functions := (chip.eraseFunctions.take Chip.maxEraseFunctions).zipIdx
  let found ← gatherCandidates chip extent filter functions {}
  match found.covering with
  | finest :: coarser =>
    let (kept, dropped) := nesting finest coarser
    notes dropped
    note (.granularitiesFound (kept.length + 1))
    pure (finest :: kept)
  | [] =>
    match found.fallback with
    | some c =>
      note (.coverageIncomplete extent c.eraser.function c.eraser.region c.total)
      pure [c.eraser]
    | none =>
      note (.noErasers chip.vendor chip.name)
      throw .noEraser

end Reflash
