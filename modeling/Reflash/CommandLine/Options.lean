/-!
# Options of a command line

Options are long, `--name`, or short, `-n`. A value stands behind the option, or is
attached to it, as in `--name=value` and `-nvalue`. Arguments are taken one by one,
and the first fault decides.

* `scan`: the options of one level, up to a command.
* `scanShort`: a cluster of short options.
-/

namespace Reflash.CommandLine

/-- What an option is followed by, and how often it may be given. -/
inductive OptionKind where
  /-- No value, at most once. -/
  | flag
  /-- No value, any number of times. -/
  | counter
  /-- A value, at most once. -/
  | value
  /-- A value, any number of times. -/
  | values
deriving DecidableEq, Repr

/-- The option may be repeated. -/
def OptionKind.repeats : OptionKind → Bool
  | counter | values => true
  | flag | value => false

/-- The option is followed by a value. -/
def OptionKind.takesValue : OptionKind → Bool
  | value | values => true
  | flag | counter => false

/-- An option. -/
structure OptionSpec where
  name : String
  short : Option Char := none
  kind : OptionKind
  /-- The values that it takes. -/
  accepts : String → Bool := fun _ => true

/-- Why arguments do not lead to a command. -/
inductive Stop where
  /-- They are wrong. -/
  | usage
  /-- The version is asked for. -/
  | version
  /-- Help is asked for. -/
  | help
deriving DecidableEq, Repr

/-- The options that were given, with their values. -/
structure Given where
  options : List (String × String) := []
deriving Repr, Inhabited

namespace Given

/-- The option was given. -/
def has (g : Given) (name : String) : Bool := g.options.any (·.1 = name)

/-- How often the option was given. -/
def count (g : Given) (name : String) : Nat := g.options.countP (·.1 = name)

/-- The values of the option. -/
def values (g : Given) (name : String) : List String :=
  (g.options.filter (·.1 = name)).map (·.2)

/-- The value of the option. -/
def value? (g : Given) (name : String) : Option String := (g.values name).head?

/-- Adds an option. A value that it does not take, and a repetition that it does not allow, is
a fault. -/
def add (g : Given) (o : OptionSpec) (value : String) : Except Stop Given :=
  if !o.accepts value then .error .usage
  else if g.has o.name && !o.kind.repeats then .error .usage
  else .ok ⟨g.options ++ [(o.name, value)]⟩

end Given

/-- One level of a command line: its options, and the commands that end it. -/
structure Grammar where
  options : List OptionSpec
  commands : List String := []
  /-- The version may be asked for. -/
  versioned : Bool := false

namespace Grammar

/-- Takes the short options of a cluster. Gives the option that waits for a value, if there is
one; a value in the cluster may stand behind an equals sign. -/
def scanShort (g : Grammar) : List Char → Given → Except Stop (Given × Option OptionSpec)
  | [], given => .ok (given, none)
  | c :: cs, given =>
    match g.options.find? (·.short = some c) with
    | some o =>
      if o.kind.takesValue then
        match cs with
        | [] => .ok (given, some o)
        | '=' :: rest => do pure (← given.add o (String.ofList rest), none)
        | _ => do pure (← given.add o (String.ofList cs), none)
      else do scanShort g cs (← given.add o "")
    | none =>
      if c = 'h' then .error .help
      else if c = 'V' && g.versioned then .error .version
      else .error .usage

/-- The text before and behind the first equals sign. -/
def splitValue (cs : List Char) : String × Option String :=
  match cs.span (· ≠ '=') with
  | (name, []) => (String.ofList name, none)
  | (name, _ :: value) => (String.ofList name, some (String.ofList value))

/-- Takes a long option. Gives the option if it waits for a value. -/
def scanLong (g : Grammar) (cs : List Char) (given : Given) :
    Except Stop (Given × Option OptionSpec) :=
  let (name, value) := splitValue cs
  match g.options.find? (·.name = name), value with
  | some o, none =>
    if o.kind.takesValue then .ok (given, some o) else do pure (← given.add o "", none)
  | some o, some v => if o.kind.takesValue then do pure (← given.add o v, none) else .error .usage
  | none, some _ => .error .usage
  | none, none =>
    if name = "help" then .error .help
    else if name = "version" && g.versioned then .error .version
    else .error .usage

/-- Takes arguments, with an option that waits for its value. Gives the options, and the command
that ended them with the arguments behind it. What starts with a minus is no value; a minus
alone is one. -/
def scan (g : Grammar) : Option OptionSpec → List String → Given →
    Except Stop (Given × Option (String × List String))
  | some _, [], _ => .error .usage
  | none, [], given => .ok (given, none)
  | some o, arg :: args, given =>
    if arg.startsWith "-" && arg ≠ "-" then .error .usage
    else do scan g none args (← given.add o arg)
  | none, arg :: args, given =>
    if g.commands.contains arg then .ok (given, some (arg, args))
    else
      match arg.toList with
      | '-' :: '-' :: [] => if args.isEmpty then .ok (given, none) else .error .usage
      | '-' :: '-' :: cs => do
        let (given, waiting) ← g.scanLong cs given
        scan g waiting args given
      | '-' :: c :: cs => do
        let (given, waiting) ← g.scanShort (c :: cs) given
        scan g waiting args given
      | _ => .error .usage

end Grammar

end Reflash.CommandLine
