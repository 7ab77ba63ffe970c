import Reflash.Error.Flash

/-!
# Errors of executing a plan

A failed step of a plan: what was being done, where, and what the device said.
-/

namespace Reflash

/-- What is done to the chip when something fails. -/
inductive Phase where
  /-- The plan is checked before the chip is touched. -/
  | setup
  | erase
  | write
  /-- Contents are read back. -/
  | verify
deriving DecidableEq, Repr

/-- The phase in a word. -/
def Phase.text : Phase → String
  | setup => "setup"
  | erase => "erase"
  | write => "write"
  | verify => "verify"

/-- A failure while a plan is executed. -/
structure ExecutionError where
  phase : Phase
  /-- The start of the range the failed step was about. -/
  address : Nat
  /-- The length of that range. -/
  len : Nat
  cause : FlashError
deriving DecidableEq, Repr

namespace ExecutionError

/-- The highest address of a 32-bit address space. -/
def maxAddress : Nat := 0xFFFFFFFF

/-- The last address of the range; a range that would leave the address space ends with it. -/
def lastAddress (e : ExecutionError) : Nat := min (e.address + e.len) maxAddress - 1

/-- The error in words. -/
def message (e : ExecutionError) : String :=
  match e.phase with
  | .setup => s!"plan setup failed: {e.cause.message}"
  | p =>
    let range := s!"{Text.address e.address}-{Text.address e.lastAddress}"
    s!"{p.text} of {range} failed: {e.cause.message}"

/-- What led to the error, in words, the nearest cause first. -/
def causes (e : ExecutionError) : List String := [e.cause.message]

end ExecutionError

end Reflash
