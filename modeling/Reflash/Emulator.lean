import Reflash.AddressRange
import Reflash.Chip.Basic
import Reflash.Poll

/-!
# An emulated chip

The emulator follows the description of a chip: an erase has to match one block of
an erase function, and a write can only move bits away from their erased value,
unless the chip erases on its own. Every erase and write waits for a simulated busy
flag. Protected ranges, refused erase functions, stuck bits and a busy flag that
never clears can be configured.

* `programByte`: what a write makes of a byte.
* `Emulator.device`: the emulated chip as a device.
-/

namespace Reflash

/-- What is emulated, and with which faults. -/
structure EmulatorConfig where
  chip : Chip
  /-- Ranges that the controller refuses to erase or write. -/
  protectedRanges : List AddressRange := []
  /-- Erase functions that the controller refuses, even in a dry run. -/
  restricted : List Nat := []
  /-- Bits that are stuck at zero: an address and a mask. -/
  stuckBits : List (Nat × UInt8) := []
  /-- Busy polls after each erase or write. -/
  busyPolls : Nat := 0
  /-- An erase or write that touches this address never ends. -/
  stuckBusyAt : Option Nat := none
deriving Repr, Inhabited

/-- A chip of one mebibyte with erases of 4 KiB, 32 KiB, 64 KiB and of the whole chip. -/
def Chip.emulated : Chip where
  vendor := "Emulated"
  name := "EMU1M"
  totalSize := 1024 * 1024
  eraseFunctions :=
    [.uniform (4 * 1024) 256, .uniform (32 * 1024) 32, .uniform (64 * 1024) 16,
      .uniform (1024 * 1024) 1]

/-- A recorded device operation. -/
inductive Operation where
  | read (address len : Nat)
  | write (address len : Nat)
  | erase (function address len : Nat)
deriving DecidableEq, Repr

namespace Operation

/-- The operation erases. -/
def isErase : Operation → Bool
  | erase _ _ _ => true
  | _ => false

/-- The operation writes. -/
def isWrite : Operation → Bool
  | write _ _ => true
  | _ => false

end Operation

/-- The state of an emulated chip. -/
structure Emulator where
  config : EmulatorConfig
  memory : Image
  /-- The operations performed, oldest first. -/
  operations : Array Operation := #[]
  /-- Polls for which the chip stays busy. -/
  busyPolls : Nat := 0
  /-- The chip is busy for good. -/
  stuckBusy : Bool := false
  /-- The time spent waiting, in microseconds. -/
  elapsed : Nat := 0
deriving Repr

/-- What writing `b` makes of a byte `cell`: a bit that has left its erased value keeps it, and
a bit of `b` that is not the erased one takes effect. -/
def programByte (erased cell b : UInt8) : UInt8 := erased ^^^ ((erased ^^^ cell) ||| (erased ^^^ b))

namespace Emulator

/-- An erased chip. -/
def create (config : EmulatorConfig) : Emulator where
  config := config
  memory := Image.blank config.chip.totalSize config.chip.erasedValue

/-- A chip that starts with these contents; what they do not reach is erased. -/
def withData (config : EmulatorConfig) (data : Image) : Emulator where
  config := config
  memory := Image.overlay (Image.blank config.chip.totalSize config.chip.erasedValue) 0 data

/-- The erase operations performed. -/
def eraseCount (e : Emulator) : Nat := e.operations.countP Operation.isErase

/-- The write operations performed. -/
def writeCount (e : Emulator) : Nat := e.operations.countP Operation.isWrite

/-- Forgets the recorded operations. -/
def clearOperations (e : Emulator) : Emulator := { e with operations := #[] }

/-- Stores bytes directly, without the rules of the chip. -/
def poke (e : Emulator) (address : Nat) (data : Image) : Emulator :=
  { e with memory := Image.overlay e.memory address data }

/-- A usable erase function that the controller does not refuse. -/
def eraseFunction (c : EmulatorConfig) (function : Nat) : Except FlashError EraseFunction :=
  match c.chip.eraseFunctions[function]? with
  | some f =>
    if c.restricted.contains function || !f.usable then .error (.eraserNotSupported function)
    else .ok f
  | none => .error (.eraserNotSupported function)

/-- The end of the address space. -/
def addressLimit : Nat := 0xFFFFFFFF

/-- Refuses a range that reaches into a protected one. Addresses end with the address space. -/
def access (c : EmulatorConfig) (address len : Nat) : Except FlashError Unit :=
  let stop := min (address + len) addressLimit
  if c.protectedRanges.any fun r => r.meets address stop then .error (.accessDenied address)
  else .ok ()

/-- Refuses a range that is not inside the memory. -/
def inside (e : Emulator) (address len : Nat) : Except FlashError Unit :=
  if address + len ≤ e.memory.size then .ok () else .error .outOfBounds

/-- Clears the stuck bits that lie in a span. -/
def stick (stuckBits : List (Nat × UInt8)) (s : Span) (m : Image) : Image :=
  stuckBits.foldl (fun m (a, mask) => if a ∈ s then m.modify a (· &&& ~~~mask) else m) m

/-- The chip is busy while it is stuck or polls remain. -/
def busy : BusyChip Emulator where
  isBusy e :=
    if e.stuckBusy then (.ok true, e)
    else if 0 < e.busyPolls then (.ok true, { e with busyPolls := e.busyPolls - 1 })
    else (.ok false, e)
  delay us e := { e with elapsed := e.elapsed + us }

/-- Ends an operation on a span: stuck bits show, and the chip is waited for. -/
def finish (s : Span) (schedule : PollSchedule) : Emulator → Reply Emulator Unit
  | ⟨config, memory, operations, _, stuckBusy, elapsed⟩ =>
    let memory := stick config.stuckBits s memory
    let stuckBusy := stuckBusy || config.stuckBusyAt.any fun a => a ∈ s
    waitReady busy schedule ⟨config, memory, operations, config.busyPolls, stuckBusy, elapsed⟩

/-- What writing `data` makes of the bytes that it is written to. -/
def programmed (chip : Chip) (cells data : Image) : Image :=
  if chip.granularity = .byteImplicitErase then data
  else Array.zipWith (programByte chip.erasedValue) cells data

/-- Lays bytes over the memory and records an operation. -/
def store (address : Nat) (data : Image) (o : Operation) : Emulator → Emulator
  | ⟨config, memory, operations, busyPolls, stuckBusy, elapsed⟩ =>
    ⟨config, Image.overlay memory address data, operations.push o, busyPolls, stuckBusy, elapsed⟩

/-- A record in front of those of a reply. -/
def noting (r : LogRecord) {α : Type} : Reply Emulator α → Reply Emulator α
  | ⟨result, device, notes⟩ => ⟨result, device, r :: notes⟩

/-- Reads, if the range is inside the memory. -/
def read (address len : Nat) (e : Emulator) : Reply Emulator (Vector UInt8 len) :=
  if h : address + len ≤ e.memory.size then
    let bytes : Vector UInt8 len :=
      ⟨e.memory.extract address (address + len), by rw [Array.size_extract]; omega⟩
    .quiet (.ok bytes) { e with operations := e.operations.push (.read address len) }
  else .quiet (.error .outOfBounds) e

/-- What keeps a write from being done. -/
def checkWrite (e : Emulator) (address len : Nat) : Except FlashError Unit := do
  e.inside address len
  access e.config address len

/-- Writes, if the range is inside the memory and not protected. -/
def write (address : Nat) (data : Image) (e : Emulator) : Reply Emulator Unit :=
  match e.checkWrite address data.size with
  | .error err => .quiet (.error err) e
  | .ok () =>
    let s : Span := ⟨address, data.size⟩
    let cells := programmed e.config.chip (Image.slice e.memory s) data
    noting (.writing s)
      (finish s .pageProgram (store address cells (.write address data.size) e))

/-- What keeps an erase from being done: the function, the block, the memory, protection. -/
def checkErase (e : Emulator) (function address len : Nat) : Except FlashError Unit := do
  let f ← eraseFunction e.config function
  if len = 0 ∨ f.blockSizeAt? address ≠ some len ∨ address % len ≠ 0 then
    throw .misaligned
  e.inside address len
  access e.config address len

/-- Erases, if the range is one block of the function, inside the memory and not protected. -/
def erase (function address len : Nat) (e : Emulator) : Reply Emulator Unit :=
  match e.checkErase function address len with
  | .error err => .quiet (.error err) e
  | .ok () =>
    let s : Span := ⟨address, len⟩
    let cells := Image.blank len e.config.chip.erasedValue
    noting (.erasingBlock s function)
      (finish s .blockErase (store address cells (.erase function address len) e))

/-- The emulated chip as a device. -/
def device : Device Emulator where
  read := read
  write := write
  erase := erase
  eraseDryRun function _ _ e := .quiet ((eraseFunction e.config function).map fun _ => ()) e
  checkAccess address len e := .quiet (access e.config address len) e

end Emulator

end Reflash
