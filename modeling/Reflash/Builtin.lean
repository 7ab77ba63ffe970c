import Reflash.Database

/-!
# Built-in chips

The chips that are known when no description is found.

* `builtin_defect?`: none of them has a defect.
-/

namespace Reflash

/-- DataFlash and a parallel EEPROM. The DataFlash has 2048 pages of 264 bytes. -/
def atmelChips : List Chip :=
  [{ vendor := "Atmel", name := "AT45DB041D", totalSize := 540672, pageSize := 264
     granularity := .bytes264
     eraseFunctions := [.uniform 264 2048, .uniform 2112 256, .uniform 540672 1] },
    { vendor := "Atmel", name := "AT28C256", totalSize := 32 * 1024, pageSize := 64
      granularity := .byteImplicitErase
      eraseFunctions := [.uniform (32 * 1024) 1] }]

/-- SPI flash with byte programming. -/
def sstChips : List Chip :=
  [{ vendor := "SST", name := "SST25VF040B", totalSize := 512 * 1024, granularity := .byte
     eraseFunctions :=
      [.uniform (4 * 1024) 128, .uniform (32 * 1024) 16, .uniform (64 * 1024) 8,
        .uniform (512 * 1024) 1, .uniform (512 * 1024) 1] },
    { vendor := "SST", name := "SST49LF040B", totalSize := 512 * 1024, granularity := .byte
      eraseFunctions :=
      [.uniform (4 * 1024) 128, .uniform (64 * 1024) 8,
        { EraseFunction.uniform (512 * 1024) 1 with supported := false }] }]

/-- SPI NOR flash. -/
def winbondChips : List Chip :=
  [{ vendor := "Winbond", name := "W25X10", totalSize := 128 * 1024
     eraseFunctions :=
      [.uniform (4 * 1024) 32, .uniform (32 * 1024) 4, .uniform (64 * 1024) 2,
        .uniform (128 * 1024) 1] },
    { vendor := "Winbond", name := "W25Q80DV", totalSize := 1024 * 1024
      eraseFunctions :=
      [.uniform (4 * 1024) 256, .uniform (32 * 1024) 32, .uniform (64 * 1024) 16,
        .uniform (1024 * 1024) 1, .uniform (1024 * 1024) 1] },
    { vendor := "Winbond", name := "W25Q64FV", totalSize := 8 * 1024 * 1024
      eraseFunctions :=
      [.uniform (4 * 1024) 2048, .uniform (32 * 1024) 256, .uniform (64 * 1024) 128,
        .uniform (8 * 1024 * 1024) 1, .uniform (8 * 1024 * 1024) 1] }]

/-- The database of the built-in chips. -/
def Database.builtin : Database := ⟨atmelChips ++ sstChips ++ winbondChips⟩

/-- No built-in chip has a defect. -/
theorem builtin_defect? : ∀ c ∈ Database.builtin.chips, c.defect? = none := by decide

end Reflash
