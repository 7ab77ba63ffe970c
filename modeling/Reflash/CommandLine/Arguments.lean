import Reflash.CommandLine.Options
import Reflash.RangeText
import Reflash.Reprogram

/-!
# Arguments

What the arguments of the program mean. Some options go for every command and may
stand before or behind its name.

* `Invocation.ofArguments`: reads the arguments.
-/

namespace Reflash.CommandLine

/-- The emulated chip that a command works on. -/
structure Target where
  /-- The name of the chip. -/
  chip : String
  /-- The file with the contents of the chip. -/
  flash : String
  protectedRanges : List AddressRange
  /-- Erase functions that the emulated controller refuses. -/
  restricted : List Nat
deriving DecidableEq, Repr

/-- Where the old contents come from. -/
structure DiffChoice where
  noDiff : Bool
  /-- The file that is trusted to hold the old contents. -/
  file : Option String
deriving DecidableEq, Repr

/-- How a command programs the chip. -/
structure Programming where
  diff : DiffChoice
  policy : Policy
  probeErasers : Bool
  verify : VerifyMode
deriving DecidableEq, Repr

/-- A command. -/
inductive Command where
  | listChips (vendor : Option String)
  | plan (chip old new : String) (wholeChip : Bool) (restricted : List Nat)
  | write (target : Target) (input : String) (programming : Programming)
  | erase (target : Target) (programming : Programming)
  | verify (target : Target) (input : String) (abortOnDenied : Bool)
deriving DecidableEq, Repr

/-- The paths of the images that the command reads or writes. -/
def Command.paths : Command → List String
  | listChips _ => []
  | plan _ old new _ _ => [old, new]
  | write t input p => input :: p.diff.file.toList ++ [t.flash]
  | erase t p => p.diff.file.toList ++ [t.flash]
  | verify t input _ => [input, t.flash]

/-- All that the arguments say. -/
structure Invocation where
  verbosity : Nat
  /-- The file or directory with chip descriptions. -/
  database : Option String
  command : Command
deriving DecidableEq, Repr

/-- The items of a list with commas. -/
def commaItems (s : String) : List (List Char) := s.toList.splitOn ','

/-- The largest number of an erase function. -/
def maxFunction : Nat := 0xFFFFFFFFFFFFFFFF

/-- Reads a list of erase functions. -/
def functions? (s : String) : Option (List Nat) :=
  (commaItems s).mapM fun cs => (Text.readNumeral 10 maxFunction cs).toOption

/-- The words for how much is verified. -/
def verifyModes : List (String × VerifyMode) :=
  [("off", .off), ("partial", .units), ("full", .chip)]

/-- A path is not empty. -/
def isPath (s : String) : Bool := !s.isEmpty

/-- The options of every command. -/
def globalOptions : List OptionSpec :=
  [{ name := "verbose", short := some 'v', kind := .counter },
    { name := "chip-db", kind := .value, accepts := isPath }]

/-- The option for the name of a chip. -/
def chipOption : OptionSpec := { name := "chip", short := some 'c', kind := .value }

/-- An option for the path of a file. -/
def pathOption (name : String) (short : Option Char) : OptionSpec :=
  { name, short, kind := .value, accepts := isPath }

/-- The option for erase functions that are not to be used. -/
def restrictOption : OptionSpec :=
  { name := "restrict-erasers", kind := .values, accepts := fun s => (functions? s).isSome }

/-- An option without a value. -/
def flagOption (name : String) : OptionSpec := { name, kind := .flag }

/-- The options for the emulated chip. -/
def targetOptions : List OptionSpec :=
  [chipOption, pathOption "flash" none,
    { name := "protect", kind := .values, accepts := fun s => (AddressRange.ofText s).isOk },
    restrictOption]

/-- The options for programming a chip. -/
def programmingOptions : List OptionSpec :=
  [flagOption "no-diff", pathOption "diff-file" none, flagOption "paranoid",
    flagOption "abort-on-denied", flagOption "probe-erasers",
    { name := "verify", kind := .value, accepts := fun s => (verifyModes.lookup s).isSome }]

/-- The commands with their own options. -/
def commandOptions : List (String × List OptionSpec) :=
  [("list-chips", [{ name := "vendor", kind := .value }]),
    ("plan",
      [chipOption, pathOption "old" none, pathOption "new" none, flagOption "whole-chip",
        restrictOption]),
    ("write", targetOptions ++ [pathOption "input" (some 'i')] ++ programmingOptions),
    ("erase", targetOptions ++ programmingOptions),
    ("verify",
      targetOptions ++ [pathOption "input" (some 'i'), flagOption "abort-on-denied"])]

/-- The command that explains the others. -/
def helpCommand : String := "help"

/-- The names of the commands. -/
def commandNames : List String := commandOptions.map (·.1)

/-- The value of an option that has to be given. -/
def needed (given : Given) (name : String) : Except Stop String :=
  match given.value? name with
  | some v => .ok v
  | none => .error .usage

/-- The erase functions that are not to be used. -/
def restrictedFunctions (given : Given) : List Nat :=
  (given.values "restrict-erasers").flatMap fun s => (functions? s).getD []

/-- The emulated chip. -/
def target (given : Given) : Except Stop Target := do
  let chip ← needed given "chip"
  let flash ← needed given "flash"
  let ranges := (given.values "protect").filterMap fun s => (AddressRange.ofText s).toOption
  pure ⟨chip, flash, ranges, restrictedFunctions given⟩

/-- How to treat denied access. -/
def deniedAction (given : Given) : DeniedAction :=
  if given.has "abort-on-denied" then .abort else .ignore

/-- How to program the chip. A file to compare with makes no sense without comparing. -/
def programming (given : Given) : Except Stop Programming := do
  let file := given.value? "diff-file"
  if given.has "no-diff" && file.isSome then throw .usage
  let verify := ((given.value? "verify").bind fun v => verifyModes.lookup v).getD default
  pure
    { diff := ⟨given.has "no-diff", file⟩
      policy := ⟨given.has "paranoid", deniedAction given⟩
      probeErasers := given.has "probe-erasers"
      verify }

/-- The command of that name with the options given. -/
def commandOf (name : String) (given : Given) : Except Stop Command :=
  match name with
  | "list-chips" => .ok (.listChips (given.value? "vendor"))
  | "plan" => do
    let chip ← needed given "chip"
    let old ← needed given "old"
    let new ← needed given "new"
    pure (.plan chip old new (given.has "whole-chip") (restrictedFunctions given))
  | "write" => do
    let target ← target given
    let input ← needed given "input"
    pure (.write target input (← programming given))
  | "erase" => do
    let target ← target given
    pure (.erase target (← programming given))
  | "verify" => do
    let target ← target given
    let input ← needed given "input"
    pure (.verify target input (given.has "abort-on-denied"))
  | _ => .error .usage

/-- Help on all commands, on one, or on help itself. -/
def helpOn : List String → Stop
  | [] => .help
  | [name] => if name = helpCommand || commandNames.contains name then .help else .usage
  | _ => .usage

/-- Reads the arguments. An option of every command counts where it stands last. -/
def Invocation.ofArguments (args : List String) : Except Stop Invocation := do
  let top : Grammar :=
    { options := globalOptions, commands := helpCommand :: commandNames, versioned := true }
  let (outer, rest) ← top.scan none args {}
  match rest with
  | none => throw .usage
  | some (name, args) =>
    if name = helpCommand then throw (helpOn args)
    let own := (commandOptions.lookup name).getD []
    let level : Grammar := { options := globalOptions ++ own }
    let (inner, _) ← level.scan none args {}
    let command ← commandOf name inner
    pure
      { verbosity := (if inner.has "verbose" then inner else outer).count "verbose"
        database := (inner.value? "chip-db").or (outer.value? "chip-db")
        command }

end Reflash.CommandLine
