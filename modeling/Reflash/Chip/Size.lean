/-!
# Sizes with units

Chip descriptions give sizes in bytes, kibibytes or mebibytes, and sizes are
printed in the largest of these units that divides them.

* `bytes_ofBytes`: the printed unit and number stand for the size they print.
-/

namespace Reflash

/-- The units of sizes. -/
inductive SizeUnit where
  | b
  | kib
  | mib
deriving DecidableEq, Repr

/-- The bytes in one unit. -/
def SizeUnit.bytes : SizeUnit → Nat
  | b => 1
  | kib => 1024
  | mib => 1024 * 1024

/-- The name of a unit. -/
def SizeUnit.name : SizeUnit → String
  | b => "B"
  | kib => "KiB"
  | mib => "MiB"

/-- The unit of that name. -/
def SizeUnit.ofName? (name : String) : Option SizeUnit :=
  [SizeUnit.b, .kib, .mib].find? (·.name == name)

/-- A number of units. -/
structure Size where
  count : Nat
  unit : SizeUnit
deriving DecidableEq, Repr

namespace Size

/-- The size in bytes. -/
def bytes (s : Size) : Nat := s.count * s.unit.bytes

/-- `n` bytes in the largest unit that divides them; nothing is zero bytes. -/
def ofBytes (n : Nat) : Size :=
  if 1024 * 1024 ≤ n ∧ n % (1024 * 1024) = 0 then ⟨n / (1024 * 1024), .mib⟩
  else if 1024 ≤ n ∧ n % 1024 = 0 then ⟨n / 1024, .kib⟩
  else ⟨n, .b⟩

/-- The size as it is printed, such as `64 KiB`. -/
def text (s : Size) : String := s!"{s.count} {s.unit.name}"

/-- The printed unit and number stand for the size they print. -/
theorem bytes_ofBytes (n : Nat) : (ofBytes n).bytes = n := by
  unfold ofBytes bytes
  split
  · simp only [SizeUnit.bytes]; omega
  · split
    · simp only [SizeUnit.bytes]; omega
    · simp [SizeUnit.bytes]

end Size

end Reflash
