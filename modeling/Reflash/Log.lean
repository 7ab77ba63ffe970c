import Reflash.Error.Execution
import Reflash.Plan.Unit
import Reflash.Summary

/-!
# Log records

Planning, execution and the emulator tell what they do. A record is a value of
its own, its text is made in one place.
-/

namespace Reflash

/-- How important a record is. -/
inductive Level where
  | trace
  | debug
  | info
  | warn
  | error
deriving DecidableEq, Repr

/-- The level as it is printed. -/
def Level.text : Level → String
  | trace => "TRACE"
  | debug => "DEBUG"
  | info => "INFO"
  | warn => "WARN"
  | error => "ERROR"

/-- How important records of the level are, as a number. -/
def Level.rank : Level → Nat
  | trace => 0
  | debug => 1
  | info => 2
  | warn => 3
  | error => 4

/-- The least important level that is shown: more with growing verbosity. -/
def Level.shownAt : (verbosity : Nat) → Level
  | 0 => info
  | 1 => debug
  | _ => trace

/-- What became of a block. -/
inductive BlockOutcome where
  | skipped
  | erased
  | written
  | erasedAndWritten
deriving DecidableEq, Repr

/-- The outcome as it is printed. -/
def BlockOutcome.text : BlockOutcome → String
  | skipped => "SKIP"
  | erased => "E"
  | written => "W"
  | erasedAndWritten => "EW"

/-- One record of the log. -/
inductive LogRecord where
  -- selecting erase functions
  | functionDropped (function : Nat) (cause : FlashError)
  | functionDuplicated (function blockSize other : Nat)
  | functionNotNesting (function blockSize finer : Nat)
  | granularitiesFound (count : Nat)
  | coverageIncomplete (extent function region covered : Nat)
  | noErasers (vendor name : String)
  -- planning
  | planMade (units : Nat)
  | planUnit (unit : ProcessingUnit)
  | noDiff
  | erasing
  | identical
  -- executing
  | executing
  | blockDone (block : Block) (outcome : BlockOutcome)
  | blockDenied (block : Block)
  | executionFailed (error : ExecutionError)
  | executed (stats : ExecutionStats)
  | eraseFailed (address : Nat) (expected found : UInt8)
  -- verifying
  | verifying
  | verifyingChanges
  | readDenied (span : Span) (cause : FlashError)
  | verifySkipped (address : Nat)
  | verifyFailed (mismatch : Mismatch) (span : Span)
  | verified
  | nothingToVerify
  -- assessing a failure
  | oldContentsUnknown
  | assessing
  | unreadable (cause : FlashError)
  | nothingChanged
  | somethingChanged
  -- the emulated chip
  | ready (polls : Nat)
  | writing (span : Span)
  | erasingBlock (span : Span) (function : Nat)
  -- the command line
  | chipsLoaded (count : Nat)
  | directoryLoaded (count : Nat) (directory : String)
  | directoryFailed (directory cause : String)
  | builtinChips
  | fileRead (size : Nat) (path : String)
  | fileMissing (path : String)
  | advice (text : String)
deriving DecidableEq, Repr

namespace LogRecord

/-- How important the record is. -/
def level : LogRecord → Level
  | ready _ | writing _ | erasingBlock _ _ => .trace
  | functionDropped _ _ | functionDuplicated _ _ _ | granularitiesFound _ | planMade _
  | planUnit _ | blockDone _ _ | executed _ | verifySkipped _ | directoryLoaded _ _
  | builtinChips | fileRead _ _ => .debug
  | noDiff | erasing | identical | executing | verifying | verifyingChanges | verified
  | nothingToVerify | chipsLoaded _ | fileMissing _ => .info
  | functionNotNesting _ _ _ | coverageIncomplete _ _ _ _ | blockDenied _ | readDenied _ _
  | nothingChanged | directoryFailed _ _ => .warn
  | noErasers _ _ | executionFailed _ | eraseFailed _ _ _ | verifyFailed _ _
  | oldContentsUnknown | assessing | unreadable _ | somethingChanged | advice _ => .error

/-- The first and the last address of a span, as a range is printed. -/
def rangeText (s : Span) : String :=
  s!"{Text.address s.start}-{Text.address (s.stop - 1)}"

/-- The start and the length of a span, as a request is printed. -/
def requestText (s : Span) : String := s!"{Text.address s.start}+{Text.short s.len}"

/-- The record in words. -/
def text : LogRecord → String
  | functionDropped f e => s!"Dropping erase function {f}: {e.message}"
  | functionDuplicated f size g =>
    s!"Erase function {f} duplicates block size {Text.short size} of function {g}, skipping"
  | functionNotNesting f size finer =>
    let size := Text.short size
    s!"Erase function {f} block size {size} is not a multiple of {Text.short finer}, skipping"
  | granularitiesFound n => s!"Found {n} usable erase granularities"
  | coverageIncomplete extent f r covered =>
    let region := s!"function {f} region {r} ({Text.short covered} bytes)"
    s!"No erase function covers {Text.short extent} bytes, falling back to {region}. " ++
      "The erase may be incomplete."
  | noErasers vendor name => s!"No erasers found for {vendor} {name}"
  | planMade n => s!"Plan with {n} processing units:"
  | planUnit u => s!"  {u.text}"
  | noDiff => "No diff performed, considering the chip erased."
  | erasing => "Erasing flash chip..."
  | identical => "Chip content is identical to the requested image."
  | executing => "Erasing and writing flash chip..."
  | blockDone b o => s!"{rangeText b.span}: {o.text}"
  | blockDenied b => s!"{rangeText b.span}: DENIED, skipping"
  | executionFailed e => e.message
  | executed s =>
    let left := s!"{s.skipped} skipped, {s.denied} denied"
    s!"{s.visited} blocks: {s.erases} erases, {s.writes} writes, {left}"
  | eraseFailed a expected found =>
    s!"ERASE FAILED at {Text.address a}! Expected={Text.byte expected}, Found={Text.byte found}"
  | verifying => "Verifying flash..."
  | verifyingChanges => "Verifying flash (changed regions only)..."
  | readDenied s e => s!"Could not read {requestText s} for verification ({e.message}), ignoring"
  | verifySkipped a => s!"Skipping verification of protected range at {Text.address a}"
  | verifyFailed m s =>
    let bytes := s!"Expected={Text.byte m.expected}, Found={Text.byte m.found}"
    let total := s!"failed byte count from {rangeText s}: {Text.short m.failCount}"
    s!"VERIFY FAILED at {Text.address m.address}! {bytes}, {total}"
  | verified => "VERIFIED."
  | nothingToVerify => "Nothing was erased or written, skipping verification."
  | oldContentsUnknown => "Erase/write failed and the old contents were never read."
  | assessing => "Erase/write failed. Checking if anything has changed."
  | unreadable e => s!"Can't even read anymore: {e.message}"
  | nothingChanged => "Good. It seems nothing was changed."
  | somethingChanged => "Apparently at least some data has changed."
  | ready n => s!"Ready after {n} polls"
  | writing s => s!"write {requestText s}"
  | erasingBlock s f => s!"erase {requestText s} with function {f}"
  | chipsLoaded n => s!"Loaded {n} chip definitions"
  | directoryLoaded n directory => s!"Loaded {n} chips from {directory}"
  | directoryFailed directory cause => s!"Failed to load chips from {directory}: {cause}"
  | builtinChips => "No chip database found in default locations, using built-in chips"
  | fileRead n path => s!"Read {n} bytes from {path}"
  | fileMissing path => s!"{path} does not exist, starting with an erased chip"
  | advice text => text

/-- The record as a line of the log. -/
def line (r : LogRecord) : String := s!"{r.level.text} {r.text}"

end LogRecord

end Reflash
