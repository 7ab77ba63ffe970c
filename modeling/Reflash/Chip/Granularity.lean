/-!
# Write granularity

The smallest unit that a write command of a chip accepts. It decides in which
chunks contents are compared and when a change needs an erase before it.
-/

namespace Reflash

/-- The smallest unit a write command accepts. -/
inductive Granularity where
  /-- Single bits, which a write can only move away from their erased value. -/
  | bit
  /-- Single bytes, each of which has to be erased before it is written again. -/
  | byte
  | bytes128
  | bytes256
  | bytes264
  | bytes512
  | bytes528
  | bytes1024
  | bytes1056
  /-- Single bytes, which the chip erases on its own. -/
  | byteImplicitErase
deriving DecidableEq, Repr

namespace Granularity

/-- Pages of 256 bytes are the usual case. -/
instance : Inhabited Granularity := ⟨bytes256⟩

/-- The size of the chunks in which contents are compared. -/
def stride : Granularity → Nat
  | bit | byte | byteImplicitErase => 1
  | bytes128 => 128
  | bytes256 => 256
  | bytes264 => 264
  | bytes512 => 512
  | bytes528 => 528
  | bytes1024 => 1024
  | bytes1056 => 1056

theorem stride_pos (g : Granularity) : 0 < g.stride := by cases g <;> decide

/-- The granularity in words. -/
def text : Granularity → String
  | bit => "bit"
  | byte => "byte"
  | byteImplicitErase => "byte (implicit erase)"
  | g => s!"{g.stride} bytes"

/-- The granularities by the names that chip descriptions use. -/
def names : List (String × Granularity) :=
  [("Bit", bit), ("Byte", byte), ("Bytes128", bytes128), ("Bytes256", bytes256),
    ("Page", bytes256), ("Bytes264", bytes264), ("Bytes512", bytes512), ("Bytes528", bytes528),
    ("Bytes1024", bytes1024), ("Bytes1056", bytes1056), ("ByteImplicitErase", byteImplicitErase)]

/-- The granularity of that name; `Page` is another word for `Bytes256`. -/
def ofName? (name : String) : Option Granularity := names.lookup name

/-- The name that chip descriptions use first. -/
def name (g : Granularity) : String := ((names.find? (·.2 == g)).map (·.1)).getD ""

end Granularity

end Reflash
