import Reflash.Builtin
import Reflash.CommandLine.Arguments
import Reflash.CommandLine.Report
import Reflash.Emulator

/-!
# Commands

What a command does with the files it is given. The contents of the emulated chip
are in a file, which is replaced after every write and erase, also a failed one.

* `runCommand`: one command with a database of chips.
* `run`: the whole program.
-/

namespace Reflash.CommandLine

/-- Why a command failed. -/
inductive CommandError where
  | unknownChip (name : String)
  | invalidChip (name : String) (defect : ChipDefect)
  | file (path : String) (cause : FileError)
  /-- A file has not the size of the chip. -/
  | imageSize (path chip : String) (expected actual : Nat)
  /-- No plan could be made. -/
  | plan (cause : FlashError)
  | operation (cause : OperationError)
deriving DecidableEq, Repr

/-- The error in words. -/
def CommandError.message : CommandError → String
  | unknownChip name => s!"unknown chip '{name}' (see list-chips)"
  | invalidChip name d => s!"invalid chip definition for {name}: {d.message}"
  | file path e => s!"{path}: {e.message}"
  | imageSize path chip expected actual =>
    s!"{path}: file is {actual} bytes, but {chip} is {expected} bytes"
  | plan e => s!"failed to plan: {e.message}"
  | operation e => e.message

/-- Why the chips could not be loaded. -/
inductive DatabaseError where
  | notFound (path : String)
  | load (cause : LoadError)
deriving DecidableEq, Repr

/-- The error in words. -/
def DatabaseError.message : DatabaseError → String
  | notFound path => s!"chip database path not found: {path}"
  | load e => s!"failed to load chip database: {e.message}"

/-- The files, and what was printed and logged so far. -/
structure World where
  files : Files
  printed : String := ""
  log : List LogRecord := []

/-- A part of a command. What it did stays done if it fails. -/
abbrev Action (ε : Type) := ExceptT ε (StateM World)

variable {ε α : Type}

/-- Prints a text. -/
def print (s : String) : Action ε Unit := fun w => (.ok (), { w with printed := w.printed ++ s })

/-- Logs records. -/
def record (rs : List LogRecord) : Action ε Unit := fun w => (.ok (), { w with log := w.log ++ rs })

/-- Gives the value, or fails. -/
def orFail {ε' : Type} (f : ε' → ε) : Except ε' α → Action ε α
  | .ok a => pure a
  | .error e => throw (f e)

/-- The chip of that name, if its description is consistent. -/
def resolveChip (db : Database) (name : String) : Except CommandError Chip :=
  match db.findExact? name with
  | none => .error (.unknownChip name)
  | some chip =>
    match chip.validate with
    | .ok () => .ok chip
    | .error d => .error (.invalidChip chip.name d)

/-- The contents of a file that has to have the size of the chip. -/
def readImageFile (path : String) (chip : Chip) : Action CommandError Image := do
  let image ← orFail (.file path) ((← get).files.read path)
  if image.size ≠ chip.totalSize then
    throw (.imageSize path chip.name chip.totalSize image.size)
  record [.fileRead image.size path]
  pure image

/-- The contents of a file, if there is to be one. -/
def readReference (path : Option String) (chip : Chip) : Action CommandError (Option Image) :=
  match path with
  | none => pure none
  | some path => do return some (← readImageFile path chip)

/-- How to program the chip, with the image to compare with. -/
def writeOptions (p : Programming) (reference : Option Image) : WriteOptions where
  old :=
    match reference with
    | some image => .reference image
    | none => if p.diff.noDiff then .noDiff else .readChip
  verify := p.verify
  policy := p.policy
  probeErasers := p.probeErasers

/-- The emulated chip with the contents of its file, or erased if there is no file. -/
def openChip (chip : Chip) (t : Target) : Action CommandError Emulator := do
  let config : EmulatorConfig :=
    { chip, protectedRanges := t.protectedRanges, restricted := t.restricted }
  if (← get).files.existsPath t.flash then
    let data ← readImageFile t.flash chip
    pure (Emulator.withData config data)
  else
    record [.fileMissing t.flash]
    pure (Emulator.create config)

/-- Stores the contents of the chip in its file. -/
def saveChip (t : Target) (e : Emulator) : Action CommandError Unit := do
  let w ← get
  let files ← orFail (.file t.flash) (w.files.write t.flash e.memory)
  set { w with files }

/-- Runs an operation on the emulated chip, and prints and logs what comes of it. -/
def runOnChip (e : Emulator) (operation : Task Emulator OperationError α) :
    Action CommandError (Except OperationError α × Emulator) := do
  let (r, s) := operation ⟨e, #[], #[]⟩
  record s.log.toList
  print (String.join (s.events.toList.map eventReport))
  pure (r, s.device)

/-- Fails with the error of an operation. A dangerous one comes with advice. -/
def conclude : Except OperationError α → Action CommandError α
  | .ok a => pure a
  | .error e => do
    if e.isDangerous then record [.advice e.assessment.advice]
    throw (.operation e)

/-- Programs the emulated chip and stores its contents whatever came of it. -/
def programChip (chip : Chip) (t : Target)
    (operation : Task Emulator OperationError Summary) : Action CommandError Unit := do
  let e ← openChip chip t
  let (r, e) ← runOnChip e operation
  saveChip t e
  discard (conclude r)

/-- Prints the plan for turning one image into another. -/
def runPlan (chip : Chip) (old new : String) (wholeChip : Bool) (restricted : List Nat) :
    Action CommandError Unit := do
  let old ← readImageFile old chip
  let new ← readImageFile new chip
  let mode := if wholeChip then ExtentMode.wholeChip else .diff
  let (r, s) := Plan.make chip old new mode (EraserFilter.except restricted) ⟨(), #[], #[]⟩
  record s.log.toList
  let plan ← orFail .plan r
  print (planReport chip plan)

/-- Writes an image to the emulated chip. -/
def runWrite (chip : Chip) (t : Target) (input : String) (p : Programming) :
    Action CommandError Unit := do
  let new ← readImageFile input chip
  let reference ← readReference p.diff.file chip
  programChip chip t (writeImage Emulator.device chip new (writeOptions p reference))

/-- Erases the emulated chip. -/
def runErase (chip : Chip) (t : Target) (p : Programming) : Action CommandError Unit := do
  let reference ← readReference p.diff.file chip
  programChip chip t (eraseImage Emulator.device chip (writeOptions p reference))

/-- Compares the emulated chip with an image. -/
def runVerify (chip : Chip) (t : Target) (input : String) (abortOnDenied : Bool) :
    Action CommandError Unit := do
  let expected ← readImageFile input chip
  let policy : Policy := { accessDenied := if abortOnDenied then .abort else .ignore }
  let e ← openChip chip t
  let (r, _) ← runOnChip e (verifyImage Emulator.device chip expected policy)
  orFail .operation r
  print (lines ["Verified"])

/-- Runs one command with a database of chips. -/
def runCommand (db : Database) : Command → Action CommandError Unit
  | .listChips vendor =>
    print (chipTable (match vendor with
      | some part => db.findByVendor part
      | none => db.chips))
  | .plan name old new wholeChip restricted => do
    let chip ← orFail id (resolveChip db name)
    runPlan chip old new wholeChip restricted
  | .write t input p => do
    let chip ← orFail id (resolveChip db t.chip)
    runWrite chip t input p
  | .erase t p => do
    let chip ← orFail id (resolveChip db t.chip)
    runErase chip t p
  | .verify t input abortOnDenied => do
    let chip ← orFail id (resolveChip db t.chip)
    runVerify chip t input abortOnDenied

/-- Where descriptions are looked for if no place is given. -/
def defaultDirectories : List String :=
  ["chips/vendors", "/usr/share/flashdiff/chips", "/usr/local/share/flashdiff/chips"]

/-- The database that was loaded, if nothing failed. -/
def loaded : Except LoadError Nat × Database → Except DatabaseError Database
  | (.ok _, db) => .ok db
  | (.error e, _) => .error (.load e)

/-- The chips of the descriptions at a place. -/
def loadFrom (path : String) (files : Files) : Except DatabaseError Database :=
  if files.isDirectoryPath path then loaded (Database.loadDirectory files path {})
  else if files.isFilePath path then loaded (Database.loadFile files path {})
  else .error (.notFound path)

/-- Adds the chips of the directories that exist, as far as they can be loaded. -/
def loadDirectories : List String → Database → Action ε Database
  | [], db => pure db
  | path :: paths, db => do
    let files := (← get).files
    if files.isDirectoryPath path then
      let (r, db) := Database.loadDirectory files path db
      match r with
      | .ok n => record [.directoryLoaded n path]
      | .error e => record [.directoryFailed path e.message]
      loadDirectories paths db
    else loadDirectories paths db

/-- The chips of the default directories, or the built-in ones if there are none. -/
def loadDefault : Action ε Database := do
  let db ← loadDirectories defaultDirectories {}
  if db.chips.isEmpty then
    record [.builtinChips]
    pure Database.builtin
  else pure db

/-- Why the program did not succeed. -/
inductive Failure where
  | usage
  | database (cause : DatabaseError)
  | command (cause : CommandError)
deriving DecidableEq, Repr

/-- The failure in words. -/
def Failure.message : Failure → String
  | usage => "wrong arguments, see --help"
  | database e => s!"Failed to load chip database: {e.message}"
  | command e => e.message

/-- The exit code: two for wrong arguments, one for other failures. -/
def Failure.exitCode : Failure → Nat
  | usage => 2
  | _ => 1

/-- What the program leaves behind. -/
structure Outcome where
  failure : Option Failure
  printed : String
  log : List LogRecord
  files : Files

/-- The exit code of the program. -/
def Outcome.exitCode (o : Outcome) : Nat := (o.failure.map Failure.exitCode).getD 0

/-- The name of the program. -/
def programName : String := "flashdiff"

/-- The version of the program. -/
def version : String := "0.1.0"

/-- What the program says about its use. -/
def helpText : String :=
  lines ["Diff-driven flash programming", "",
    s!"Usage: {programName} [OPTIONS] <COMMAND>", "", "Commands:",
    "  list-chips  List chips in the database",
    "  plan        Show the erase/write plan for turning one image into another",
    "  write       Write file to the emulated chip",
    "  erase       Erase the emulated chip",
    "  verify      Verify the emulated chip against a file"]

/-- Loads the chips and runs the command. -/
def invoke (i : Invocation) : Action Failure Unit := do
  let db ←
    match i.database with
    | some path => orFail .database (loadFrom path (← get).files)
    | none => loadDefault
  record [.chipsLoaded db.chips.length]
  fun w =>
    let (r, w) := runCommand db i.command w
    (r.mapError .command, w)

/-- Runs the program with arguments on files. -/
def run (args : List String) (files : Files) : Outcome :=
  match Invocation.ofArguments args with
  | .error .usage => ⟨some .usage, "", [], files⟩
  | .error .version => ⟨none, lines [s!"{programName} {version}"], [], files⟩
  | .error .help => ⟨none, helpText, [], files⟩
  | .ok i =>
    match invoke i { files } with
    | (.ok (), w) => ⟨none, w.printed, w.log, w.files⟩
    | (.error e, w) => ⟨some e, w.printed, w.log, w.files⟩

end Reflash.CommandLine
