import Reflash.Verification
import Reflash.Window

/-!
# Execution of a plan

The blocks of a plan are processed one after the other: erased where the write
granularity demands it, then written where they differ. A copy of the contents is
kept in step with every completed erase and write.

* `processBlock`: one block, on a copy of that block alone.
* `executePlan`: the whole plan. Denied access gives up one block if the policy
  ignores it; any other failure ends the execution.
-/

namespace Reflash

/-- An execution under way: the session, what the chip is taken to hold, and the counters. -/
structure Execution (σ : Type) where
  session : Session σ
  current : Image
  stats : ExecutionStats := {}

/-- A step of an execution. What it did stays done if it fails. -/
abbrev Step (σ : Type) := ExceptT ExecutionError (StateM (Execution σ))

variable {σ α : Type}

instance : MonadSession σ (Step σ) :=
  ⟨fun f ⟨session, current, stats⟩ =>
    let (a, session) := f session
    (.ok a, ⟨session, current, stats⟩)⟩

namespace Step

/-- Works on the device; an error becomes one of this phase and span. -/
def during (phase : Phase) (s : Span) (x : Task σ FlashError α) : Step σ α :=
  fun ⟨session, current, stats⟩ =>
    let (r, session) := x session
    (r.mapError (ExecutionError.mk phase s.start s.len), ⟨session, current, stats⟩)

/-- Counts something. -/
def count (f : ExecutionStats → ExecutionStats) : Step σ Unit :=
  fun ⟨session, current, stats⟩ => (.ok (), ⟨session, current, f stats⟩)

/-- Changes the copy of the contents. -/
def update (f : Image → Image) : Step σ Unit :=
  fun ⟨session, current, stats⟩ => (.ok (), ⟨session, f current, stats⟩)

/-- Runs a step on the copy of one span and takes the changes over, also if the step fails. -/
def within (s : Span) (x : Step σ α) : Step σ (Except ExecutionError α) :=
  fun ⟨session, current, stats⟩ =>
    let (r, ⟨session, part, stats⟩) := x ⟨session, Image.slice current s, stats⟩
    (.ok r, ⟨session, Image.overlay current s.start part, stats⟩)

end Step

/-- Checks that every byte of the span reads as erased. -/
def checkErased (d : Device σ) (s : Span) (erased : UInt8) : Task σ FlashError Unit := do
  let bytes ← Device.ask (d.read s.start s.len)
  match (Span.mk 0 s.len).find? fun i => Image.byte bytes.toArray i != erased with
  | none => pure ()
  | some i =>
    let found := Image.byte bytes.toArray i
    note (.eraseFailed (s.start + i) erased found)
    throw (.eraseFailed (s.start + i) found)

/-- Erases a block. The copy is that of the block. -/
def eraseBlock (d : Device σ) (chip : Chip) (policy : Policy) (b : Block) : Step σ Unit := do
  Step.count fun s => { s with contentChanged := true }
  Step.during .erase b.span (Device.ask (d.erase b.function b.start b.size))
  if policy.paranoid then
    Step.during .erase b.span (checkErased d b.span chip.erasedValue)
  Step.update fun m => Image.blank m.size chip.erasedValue
  Step.count fun s => { s with erases := s.erases + 1, bytesErased := s.bytesErased + b.size }

/-- Writes one window of a block. A block that was just erased is not read back. -/
def writeWindow (d : Device σ) (chip : Chip) (policy : Policy) (b : Block) (want : Image)
    (erased : Bool) (w : Span) : Step σ Unit := do
  let data := Image.slice want w
  let target : Span := ⟨b.start + w.start, w.len⟩
  Step.count fun s => { s with contentChanged := true }
  Step.during .write target (Device.ask (d.write target.start data))
  if policy.paranoid && !erased then
    Step.during .write target (verifyRange d chip data target.start policy)
  Step.update fun m => Image.overlay m w.start data
  Step.count fun s => { s with writes := s.writes + 1, bytesWritten := s.bytesWritten + w.len }

/-- Writes at most `n` windows from `offset` on, each looked for in the copy as it then is.
Tells whether there was one. -/
def writeWindows (d : Device σ) (chip : Chip) (policy : Policy) (b : Block) (want : Image)
    (erased : Bool) : Nat → Nat → Step σ Bool
  | 0, _ => pure false
  | n + 1, offset => do
    match nextWindow? (← get).current want chip.granularity offset with
    | none => pure false
    | some w =>
      writeWindow d chip policy b want erased w
      discard (writeWindows d chip policy b want erased n w.stop)
      pure true

/-- What an erase and writes make of a block. -/
def BlockOutcome.of : (erased written : Bool) → BlockOutcome
  | false, false => .skipped
  | true, false => .erased
  | false, true => .written
  | true, true => .erasedAndWritten

/-- Turns a block into `want`. No window is empty, so there are not more than bytes. -/
def processBlock (d : Device σ) (chip : Chip) (policy : Policy) (b : Block) (want : Image) :
    Step σ BlockOutcome := do
  let erase := needErase (← get).current want chip.granularity chip.erasedValue
  if erase then eraseBlock d chip policy b
  let written ← writeWindows d chip policy b want erase want.size 0
  pure (.of erase written)

/-- Turns block after block into what `new` holds there. Before the blocks, `done` bytes were
processed. -/
def processBlocks (d : Device σ) (chip : Chip) (policy : Policy) (new : Image) :
    List Block → Nat → Step σ Unit
  | [], _ => pure ()
  | b :: bs, done => do
    Step.count fun s => { s with visited := s.visited + 1 }
    match ← Step.within b.span (processBlock d chip policy b (Image.slice new b.span)) with
    | .ok outcome =>
      if outcome = .skipped then Step.count fun s => { s with skipped := s.skipped + 1 }
      note (.blockDone b outcome)
    | .error e =>
      if policy.ignores e.cause then
        Step.count fun s => { s with denied := s.denied + 1 }
        note (.blockDenied b)
      else
        note (.executionFailed e)
        throw e
    report (.blockDone (done + b.size))
    processBlocks d chip policy new bs (done + b.size)

/-- Executes a plan on a chip that is taken to hold `current`. Gives the counters or the error,
and what the chip is taken to hold afterwards. -/
def executePlan (d : Device σ) (chip : Chip) (plan : Plan) (current : Image) (policy : Policy) :
    StateM (Session σ) (Except ExecutionError ExecutionStats × Image) := do
  if current.size ≠ plan.new.size then
    pure (.error ⟨.setup, 0, 0, .sizeMismatch plan.new.size current.size⟩, current)
  else
    note .executing
    report (.executing plan.units.length plan.totalBytes)
    let (r, current, stats) ← fun session =>
      let (r, ⟨session, current, stats⟩) :=
        processBlocks d chip policy plan.new plan.blocks 0 ⟨session, current, {}⟩
      ((r, current, stats), session)
    match r with
    | .ok () =>
      note (.executed stats)
      pure (.ok stats, current)
    | .error e => pure (.error e, current)

end Reflash
