import Reflash.Image
import Reflash.Log

/-!
# Sessions with a device

A `Device` is any hardware that can be read, written and erased. Its operations
are functions of its state that may fail in any way at any time. A `Task` is a
computation on a session: the state of the device, the log and the progress
events so far.

* `Device.ask`: one call of a device operation within a session.
* `Task.relabel`: the same computation with its errors put into context.
-/

namespace Reflash

/-- What a device operation comes to: a result, the state of the device after it,
and what the device logs about it. -/
structure Reply (σ α : Type) where
  result : Except FlashError α
  device : σ
  notes : List LogRecord

/-- A reply without notes. -/
@[inline] def Reply.quiet {σ α : Type} (result : Except FlashError α) (device : σ) : Reply σ α :=
  ⟨result, device, []⟩

/-- Programmable flash hardware with states `σ`. -/
structure Device (σ : Type) where
  /-- Reads `len` bytes at an address. -/
  read : (address len : Nat) → σ → Reply σ (Vector UInt8 len)
  /-- Writes data at an address. -/
  write : (address : Nat) → (data : Image) → σ → Reply σ Unit
  /-- Erases the block of `len` bytes at an address by one of the chip's erase functions. -/
  erase : (function address len : Nat) → σ → Reply σ Unit
  /-- Whether such an erase would be accepted. A device that cannot tell accepts everything. -/
  eraseDryRun : (function address len : Nat) → σ → Reply σ Unit :=
    fun _ _ _ d => .quiet (.ok ()) d
  /-- Whether the range may be modified. A device that cannot tell allows everything. -/
  checkAccess : (address len : Nat) → σ → Reply σ Unit := fun _ _ d => .quiet (.ok ()) d

/-- The state of a device together with what was logged and reported so far. -/
structure Session (σ : Type) where
  device : σ
  log : Array LogRecord := #[]
  events : Array Progress := #[]

/-- A computation on a session that may fail with an `ε`. What it did stays done. -/
abbrev Task (σ ε : Type) := ExceptT ε (StateM (Session σ))

variable {σ ε α : Type}

/-- Computations that can work on a session along the way. -/
class MonadSession (σ : outParam Type) (m : Type → Type) where
  onSession {α : Type} : (Session σ → α × Session σ) → m α

instance : MonadSession σ (StateM (Session σ)) := ⟨fun f => f⟩

instance : MonadSession σ (Task σ ε) :=
  ⟨fun f s =>
    let (a, s) := f s
    (.ok a, s)⟩

export MonadSession (onSession)

variable {m : Type → Type} [MonadSession σ m]

/-- Adds a record to the log. -/
def note (r : LogRecord) : m Unit :=
  onSession fun ⟨device, log, events⟩ => ((), ⟨device, log.push r, events⟩)

/-- Adds records to the log. -/
def notes (rs : List LogRecord) : m Unit :=
  onSession fun ⟨device, log, events⟩ => ((), ⟨device, log ++ rs, events⟩)

/-- Reports an event. -/
def report (e : Progress) : m Unit :=
  onSession fun ⟨device, log, events⟩ => ((), ⟨device, log, events.push e⟩)

/-- Runs a computation without reporting its events. -/
def unreported (x : StateM (Session σ) α) : StateM (Session σ) α :=
  fun ⟨device, log, events⟩ =>
    let (a, ⟨device, log, _⟩) := x ⟨device, log, #[]⟩
    (a, ⟨device, log, events⟩)

/-- One call of a device operation. -/
def Device.ask (operation : σ → Reply σ α) : Task σ FlashError α :=
  fun ⟨device, log, events⟩ =>
    let ⟨result, device, notes⟩ := operation device
    (result, ⟨device, log ++ notes, events⟩)

/-- The same computation with its errors put into context. -/
def Task.relabel {ε' : Type} (f : ε → ε') (x : Task σ ε α) : Task σ ε' α :=
  fun s =>
    let (r, s) := x s
    (r.mapError f, s)

end Reflash
