/-!
# Counters and progress

What an execution counts, what an operation reports in the end, and the events by
which it can be watched.
-/

namespace Reflash

/-- Counters of executing a plan. -/
structure ExecutionStats where
  visited : Nat := 0
  /-- Blocks that needed neither an erase nor a write. -/
  skipped : Nat := 0
  /-- Blocks given up because access was denied. -/
  denied : Nat := 0
  erases : Nat := 0
  bytesErased : Nat := 0
  writes : Nat := 0
  bytesWritten : Nat := 0
  /-- An erase or a write was issued, successful or not. -/
  contentChanged : Bool := false
deriving DecidableEq, Repr, Inhabited

/-- The report of a completed operation. -/
structure Summary where
  /-- Processing units of the plan. -/
  units : Nat := 0
  /-- Bytes that differ between the old and the new contents. -/
  bytesChanged : Nat := 0
  erases : Nat := 0
  bytesErased : Nat := 0
  writes : Nat := 0
  bytesWritten : Nat := 0
  denied : Nat := 0
  /-- An erase or a write was issued. -/
  modified : Bool := false
  /-- The result was read back and is right. -/
  verified : Bool := false
deriving DecidableEq, Repr, Inhabited

/-- The summary with the counters of an execution. -/
def Summary.record (s : Summary) (e : ExecutionStats) : Summary :=
  { s with
    erases := e.erases, bytesErased := e.bytesErased
    writes := e.writes, bytesWritten := e.bytesWritten
    denied := e.denied, modified := e.contentChanged }

/-- An event in the course of an operation. -/
inductive Progress where
  /-- Reading the chip starts. -/
  | reading (total : Nat)
  /-- So many bytes are read. -/
  | readProgress (bytes : Nat)
  /-- Executing a plan starts. -/
  | executing (units total : Nat)
  /-- Blocks of so many bytes are done. -/
  | blockDone (bytes : Nat)
  /-- Verification starts. -/
  | verifying (total : Nat)
  /-- The operation is complete. -/
  | complete (summary : Summary)
deriving DecidableEq, Repr

end Reflash
