/-!
# Erase functions

A chip erases in blocks. Each of its erase functions lays blocks over the chip
from address zero on, region after region, and the blocks of one region have one
size.

* `blockSizeAt?_eq_none_iff`: behind the last region there is no block.
-/

namespace Reflash

/-- `count` blocks of `size` bytes each, one behind the other. -/
structure Region where
  size : Nat
  count : Nat
deriving DecidableEq, Repr, Inhabited

/-- The bytes that a region covers. -/
def Region.total (r : Region) : Nat := r.size * r.count

/-- One erase command of a chip: whether the chip executes it, and its block layout. -/
structure EraseFunction where
  supported : Bool
  regions : List Region
deriving DecidableEq, Repr, Inhabited

namespace EraseFunction

/-- An erase function describes at most this many regions. -/
def maxRegions : Nat := 8

/-- A supported function with these regions; those beyond the limit are dropped. -/
def ofRegions (regions : List Region) : EraseFunction := ⟨true, regions.take maxRegions⟩

/-- A supported function with `count` blocks of `size` bytes. -/
def uniform (size count : Nat) : EraseFunction := ofRegions [⟨size, count⟩]

/-- The function with exactly `n` of its region slots in use, of which there are `maxRegions`.
Slots that were not in use are empty regions. -/
def withRegionCount (f : EraseFunction) (n : Nat) : EraseFunction :=
  let slots := (f.regions ++ List.replicate maxRegions (Region.mk 0 0)).take maxRegions
  { f with regions := slots.take n }

/-- A function without blocks, or one the chip does not execute, cannot be used. -/
def usable (f : EraseFunction) : Bool := f.supported && f.regions.head?.any fun r => 0 < r.count

/-- The bytes that the regions cover together. -/
def total (f : EraseFunction) : Nat := f.regions.foldr (fun r n => r.total + n) 0

/-- The block size at `offset` bytes into the regions. -/
def blockSizeIn? : List Region → Nat → Option Nat
  | [], _ => none
  | r :: rs, offset => if offset < r.total then some r.size else blockSizeIn? rs (offset - r.total)

/-- The size of the block that address `a` lies in. -/
def blockSizeAt? (f : EraseFunction) (a : Nat) : Option Nat := blockSizeIn? f.regions a

private theorem blockSizeIn?_eq_none_iff {rs : List Region} {a : Nat} :
    blockSizeIn? rs a = none ↔ rs.foldr (fun r n => r.total + n) 0 ≤ a := by
  induction rs generalizing a with
  | nil => simp [blockSizeIn?]
  | cons r rs ih =>
    simp only [blockSizeIn?, List.foldr_cons]
    split
    · simp; omega
    · rw [ih]; omega

/-- Behind the last region there is no block. -/
theorem blockSizeAt?_eq_none_iff {f : EraseFunction} {a : Nat} :
    f.blockSizeAt? a = none ↔ f.total ≤ a := blockSizeIn?_eq_none_iff

end EraseFunction

end Reflash
