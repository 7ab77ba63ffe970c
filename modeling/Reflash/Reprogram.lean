import Reflash.Execution
import Reflash.Recovery

/-!
# Reprogramming a chip

The whole of an operation: obtain the old contents, plan, execute, verify.

* `writeImage`: turns the contents of the chip into an image.
* `eraseImage`: erases the chip, or the blocks of it that hold data.
* `verifyImage`: compares the chip with an image.
-/

namespace Reflash

/-- Where the old contents come from. -/
inductive OldContents where
  /-- The chip is read. -/
  | readChip
  /-- An image is trusted to be what the chip holds. -/
  | reference (image : Image)
  /-- Nothing is compared. A write takes the chip for erased, an erase takes no byte for
  erased, so that all of the chip is processed. -/
  | noDiff
deriving DecidableEq, Repr

instance : Inhabited OldContents := ⟨.readChip⟩

/-- How an image is written or the chip is erased. -/
structure WriteOptions where
  old : OldContents := .readChip
  verify : VerifyMode := .chip
  policy : Policy := {}
  /-- Ask the device which erase functions it accepts before planning. -/
  probeErasers : Bool := false
deriving DecidableEq, Repr, Inhabited

variable {σ : Type}

/-- Refuses an image that has not the size of the chip. -/
def checkSize (chip : Chip) (m : Image) : Except OperationError Unit :=
  (chip.checkImage m).mapError .plan

/-- Executes a plan. If that fails, tells what state the chip is in, for which the old contents
have to be known. -/
def executeAssessed (d : Device σ) (chip : Chip) (plan : Plan) (mode : ExtentMode)
    (policy : Policy) : Task σ OperationError ExecutionStats := do
  let (r, _) ← executePlan d chip plan plan.old policy
  match r with
  | .ok stats => pure stats
  | .error e =>
    match mode with
    | .wholeChip =>
      note .oldContentsUnknown
      throw (.execute e .unknown)
    | .diff =>
      let assessment ← assessFailure d chip plan.old
      throw (.execute e assessment)

/-- Reads back what an execution did, unless it did nothing or nobody wants to know. Tells
whether something was read back. -/
def verifyExecuted (d : Device σ) (chip : Chip) (plan : Plan) (options : WriteOptions)
    (stats : ExecutionStats) : Task σ OperationError Bool := do
  if options.verify = .off then pure false
  else if stats.contentChanged then
    report (.verifying (if options.verify = .units then plan.totalBytes else plan.new.size))
    (verifyPlan d chip plan options.verify options.policy).relabel .verify
    note .verified
    pure true
  else
    note .nothingToVerify
    pure false

/-- Turns `old` into `new`: plans, executes and verifies. -/
def program (d : Device σ) (chip : Chip) (old new : Image) (mode : ExtentMode)
    (options : WriteOptions) : Task σ OperationError Summary := do
  let filter := if options.probeErasers then EraserFilter.dryRun d else EraserFilter.all
  let plan ← (Plan.make chip old new mode filter).relabel .plan
  let summary : Summary :=
    { units := plan.units.length, bytesChanged := Image.countDiffering old new }
  if plan.isEmpty then
    note .identical
    report (.complete summary)
    pure summary
  else
    let stats ← executeAssessed d chip plan mode options.policy
    let verified ← verifyExecuted d chip plan options stats
    let summary := { summary.record stats with verified }
    report (.complete summary)
    pure summary

/-- The old contents to compare with, and how far the plan has to reach. Without a comparison
every byte counts as `assumed`. -/
def oldContents (d : Device σ) (chip : Chip) (assumed : UInt8) :
    OldContents → Task σ OperationError (Image × ExtentMode)
  | .readChip => do
    let image ← (readImage d chip).relabel .read
    pure (image, .diff)
  | .reference image => do
    checkSize chip image
    pure (image, .diff)
  | .noDiff => pure (Image.blank chip.totalSize assumed, .wholeChip)

/-- Turns the contents of the chip into `new`. -/
def writeImage (d : Device σ) (chip : Chip) (new : Image) (options : WriteOptions) :
    Task σ OperationError Summary := do
  checkSize chip new
  let (old, mode) ← oldContents d chip chip.erasedValue options.old
  if let .noDiff := options.old then note .noDiff
  program d chip old new mode options

/-- Erases the chip. With a comparison only the blocks that hold data are erased. -/
def eraseImage (d : Device σ) (chip : Chip) (options : WriteOptions) :
    Task σ OperationError Summary := do
  let (old, mode) ← oldContents d chip (~~~chip.erasedValue) options.old
  note .erasing
  program d chip old (Image.blank chip.totalSize chip.erasedValue) mode options

/-- Compares the whole chip with `expected`. -/
def verifyImage (d : Device σ) (chip : Chip) (expected : Image) (policy : Policy) :
    Task σ OperationError Unit := do
  checkSize chip expected
  note .verifying
  report (.verifying expected.size)
  (verifyRange d chip expected 0 policy).relabel fun e =>
    .verify ⟨.verify, 0, chip.totalSize, e⟩
  note .verified

end Reflash
