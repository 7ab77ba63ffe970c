import Reflash.Chip.Basic
import Reflash.Plan.Basic
import Reflash.Policy

/-!
# Verification

Contents are read back and compared in pieces of the chip's page size. Pieces that
the device reports as protected are left out if the policy ignores denied access.

* `verifyRange`: the check of one range.
* `verifyPlan`: the check of what a plan wrote, or of the whole chip.
-/

namespace Reflash

namespace Mismatch

/-- Compares read contents with the expected ones, whose first byte has address `start`. -/
def find? (want found : Image) (start : Nat) : Option Mismatch :=
  ((Image.shared want found).find? (Image.differsAt want found)).map fun i =>
    ⟨start + i, want.byte i, found.byte i, Image.countDiffering want found⟩

/-- The first mismatch stays the first, the differing bytes add up. -/
def combine : Option Mismatch → Mismatch → Mismatch
  | none, m => m
  | some first, m => { first with failCount := first.failCount + m.failCount }

end Mismatch

variable {σ : Type}

/-- Whether the device allows access to a range; a denial that the policy ignores is no error. -/
def accessible (d : Device σ) (policy : Policy) (address len : Nat) : Task σ FlashError Bool := do
  match ← policy.absorb (Device.ask (d.checkAccess address len)) with
  | .ok () => pure true
  | .error _ =>
    note (.verifySkipped address)
    pure false

/-- Reads piece after piece and stops at the first one that differs. -/
def checkEach (d : Device σ) (policy : Policy) (want : Image) (start : Nat) :
    List Span → Task σ FlashError (Option Mismatch)
  | [] => pure none
  | p :: ps => do
    let address := start + p.start
    if ← accessible d policy address p.len then
      match ← policy.absorb (Device.ask (d.read address p.len)) with
      | .error _ => checkEach d policy want start ps
      | .ok bytes =>
        match Mismatch.find? (Image.slice want p) bytes.toArray address with
        | some m => pure (some m)
        | none => checkEach d policy want start ps
    else checkEach d policy want start ps

/-- Compares piece after piece with contents that were read in one go, and goes on after a
mismatch. -/
def checkRead (d : Device σ) (policy : Policy) (want read : Image) (start : Nat) :
    List Span → Option Mismatch → Task σ FlashError (Option Mismatch)
  | [], first => pure first
  | p :: ps, first => do
    let address := start + p.start
    if ← accessible d policy address p.len then
      match Mismatch.find? (Image.slice want p) (Image.slice read p) address with
      | some m => checkRead d policy want read start ps (some (Mismatch.combine first m))
      | none => checkRead d policy want read start ps first
    else checkRead d policy want read start ps first

/-- The mismatch between the device and `want` from `start` on. In paranoid mode each piece is
read on its own and the first one that differs decides; otherwise the range is read in one go
and all of it counts. A range that must not be read at all has no mismatch if the policy ignores
denied access. -/
def findMismatch (d : Device σ) (chip : Chip) (want : Image) (start : Nat) (policy : Policy) :
    Task σ FlashError (Option Mismatch) := do
  let pieces := Span.pieces ⟨0, want.size⟩ (max chip.pageSize 1)
  if policy.paranoid then checkEach d policy want start pieces
  else
    match ← policy.absorb (Device.ask (d.read start want.size)) with
    | .ok bytes => checkRead d policy want bytes.toArray start pieces none
    | .error e =>
      note (.readDenied ⟨start, want.size⟩ e)
      pure none

/-- Checks that the device holds `want` from `start` on. -/
def verifyRange (d : Device σ) (chip : Chip) (want : Image) (start : Nat) (policy : Policy) :
    Task σ FlashError Unit := do
  if want.isEmpty then pure ()
  else
    match ← findMismatch d chip want start policy with
    | none => pure ()
    | some m =>
      note (.verifyFailed m ⟨start, want.size⟩)
      throw (.verifyFailed m)

/-- Checks the addresses of one unit after the other. -/
def verifyUnits (d : Device σ) (chip : Chip) (new : Image) (policy : Policy) :
    List ProcessingUnit → Task σ ExecutionError Unit
  | [] => pure ()
  | u :: us => do
    (verifyRange d chip (Image.slice new u.span) u.offset policy).relabel
      (ExecutionError.mk .verify u.offset u.size)
    verifyUnits d chip new policy us

/-- Reads back what a plan wrote. -/
def verifyPlan (d : Device σ) (chip : Chip) (plan : Plan) (mode : VerifyMode) (policy : Policy) :
    Task σ ExecutionError Unit := do
  match mode with
  | .off => pure ()
  | .units =>
    note .verifyingChanges
    verifyUnits d chip plan.new policy plan.units
  | .chip =>
    note .verifying
    (verifyRange d chip plan.new 0 policy).relabel (ExecutionError.mk .verify 0 plan.new.size)

end Reflash
