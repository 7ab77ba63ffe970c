import Reflash.Session

/-!
# Policies

How careful an execution is and which errors it absorbs.

* `Policy.absorb`: a computation whose ignored errors become values.
-/

namespace Reflash

/-- What to do when the controller refuses access to a protected range. -/
inductive DeniedAction where
  /-- Skip what is affected and carry on. -/
  | ignore
  /-- Treat it like any other failure. -/
  | abort
deriving DecidableEq, Repr, Inhabited

/-- How a plan is executed and verified. -/
structure Policy where
  /-- Read back and check after every erase and write. -/
  paranoid : Bool := false
  accessDenied : DeniedAction := .ignore
deriving DecidableEq, Repr, Inhabited

/-- How much is read back after an execution. -/
inductive VerifyMode where
  /-- Nothing. -/
  | off
  /-- The addresses of the plan's units. -/
  | units
  /-- The whole chip. -/
  | chip
deriving DecidableEq, Repr

instance : Inhabited VerifyMode := ⟨.chip⟩

namespace Policy

/-- The policy absorbs this error. -/
def ignores (p : Policy) (e : FlashError) : Bool :=
  e.isAccessDenied && p.accessDenied == .ignore

variable {σ α : Type}

/-- The computation, with an error that the policy ignores as its value. -/
def absorb (p : Policy) (x : Task σ FlashError α) : Task σ FlashError (Except FlashError α) :=
  fun s =>
    match x s with
    | (.ok a, s) => (.ok (.ok a), s)
    | (.error e, s) => if p.ignores e then (.ok (.error e), s) else (.error e, s)

end Policy

end Reflash
