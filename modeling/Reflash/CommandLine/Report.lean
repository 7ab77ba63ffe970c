import Reflash.Database
import Reflash.Plan.Basic
import Reflash.Summary

/-!
# Printed reports

What the commands print: the table of chips, plans, and summaries of operations.
-/

namespace Reflash.CommandLine

/-- The text filled up with blanks on the right to a width. -/
def padRight (width : Nat) (s : String) : String :=
  s ++ String.ofList (List.replicate (width - s.length) ' ')

/-- The text filled up with blanks on the left to a width. -/
def padLeft (width : Nat) (s : String) : String :=
  String.ofList (List.replicate (width - s.length) ' ') ++ s

/-- Lines, each with a line end. -/
def lines (ls : List String) : String := String.join (ls.map (· ++ "\n"))

/-- A number of bytes in a unit that suits it. -/
def sizeText (bytes : Nat) : String := (Size.ofBytes bytes).text

/-- A region: the number of its blocks, if there is not one, and their size. -/
def regionText (r : Region) : String :=
  if r.count = 1 then sizeText r.size else s!"{r.count}x{sizeText r.size}"

/-- The regions of an erase function, in brackets if it cannot be used. -/
def functionText (f : EraseFunction) : String :=
  let regions := String.intercalate "+" (f.regions.map regionText)
  if f.usable then regions else s!"({regions})"

/-- One row of the table of chips. -/
def row (vendor name size write erase : String) : String :=
  s!"{padRight 10 vendor} {padRight 14 name} {padLeft 10 size} {padLeft 12 write}  {erase}"

/-- The row of a chip. -/
def chipRow (c : Chip) : String :=
  row c.vendor c.name (sizeText c.totalSize) c.granularity.text
    (String.intercalate ", " (c.eraseFunctions.map functionText))

/-- The table of chips. -/
def chipTable (chips : List Chip) : String :=
  lines (["Supported flash chips:", "", row "Vendor" "Name" "Size" "Write" "Erase blocks",
    String.ofList (List.replicate 78 '-')] ++ chips.map chipRow)

/-- The units of a plan. -/
def planReport (chip : Chip) (plan : Plan) : String :=
  let head := s!"{chip.vendor} {chip.name}: {sizeText chip.totalSize} ({chip.granularity.text})"
  if plan.isEmpty then lines [head, "Images are identical, nothing to do"]
  else
    let total := s!"{plan.units.length} processing unit(s) covering {plan.totalBytes} bytes:"
    lines ([head, total] ++ plan.units.map fun u => s!"  {u.text}")

/-- What an operation did. -/
def summaryReport (s : Summary) : String :=
  if s.units = 0 then lines ["Flash already contains the desired data - no changes needed"]
  else
    let erased := s!"{s.erases} blocks erased ({s.bytesErased} bytes)"
    let written := s!"{s.writes} writes ({s.bytesWritten} bytes)"
    let denied :=
      if 0 < s.denied then
        [s!"Skipped {s.denied} protected block(s), their contents were left as they were"]
      else []
    let verified := if s.verified then ["Verified"] else []
    lines ([s!"Smart write: {s.bytesChanged} bytes changed, {erased}, {written}"] ++ denied
      ++ verified)

/-- What is printed on an event. -/
def eventReport : Progress → String
  | .complete s => summaryReport s
  | _ => ""

end Reflash.CommandLine
