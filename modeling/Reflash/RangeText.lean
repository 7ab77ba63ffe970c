import Reflash.AddressRange
import Reflash.Text.Numeral

/-!
# Ranges as text

Ranges are written `START-END`, without the end, or `START+LEN`, with decimal
numbers or hexadecimal ones behind `0x`.

* `AddressRange.ofText`: reads a range that is not empty.
-/

namespace Reflash

/-- Why a text is no range. -/
inductive RangeError where
  /-- What stands behind `0x` is no number. -/
  | hex (cause : Text.NumeralError)
  | number (cause : Text.NumeralError)
  /-- The end lies outside the address space. -/
  | overflow (text : String)
  /-- There are no two numbers. -/
  | shape (text : String)
  | empty (text : String)
deriving DecidableEq, Repr

/-- The error in words. -/
def RangeError.message : RangeError → String
  | hex e => s!"Invalid hex value: {e.message}"
  | number e => s!"Invalid number: {e.message}"
  | overflow text => s!"Range overflows: {text}"
  | shape text => s!"Expected START-END or START+LEN, got '{text}'"
  | empty text => s!"Empty range: {text}"

namespace AddressRange

/-- The largest address. -/
def maxAddress : Nat := 0xFFFFFFFF

/-- The text before and behind the first `c`. -/
def splitOnce (c : Char) : List Char → Option (List Char × List Char)
  | [] => none
  | x :: xs =>
    if x = c then some ([], xs)
    else (splitOnce c xs).map fun (before, behind) => (x :: before, behind)

/-- Reads an address or a length. -/
def readAddress : List Char → Except RangeError Nat
  | '0' :: 'x' :: cs | '0' :: 'X' :: cs => (Text.readNumeral 16 maxAddress cs).mapError .hex
  | cs => (Text.readNumeral 10 maxAddress cs).mapError .number

/-- Reads both bounds. A minus is looked for before a plus. -/
def readBounds (text : String) (cs : List Char) : Except RangeError AddressRange :=
  match splitOnce '-' cs with
  | some (start, stop) => do
    let start ← readAddress start
    let stop ← readAddress stop
    pure ⟨start, stop⟩
  | none =>
    match splitOnce '+' cs with
    | some (start, len) => do
      let start ← readAddress start
      let len ← readAddress len
      if start + len ≤ maxAddress then pure ⟨start, start + len⟩ else throw (.overflow text)
    | none => throw (.shape text)

/-- Reads a range. An empty range is refused. -/
def ofText (text : String) : Except RangeError AddressRange := do
  let range ← readBounds text text.toList
  if range.start < range.stop then pure range else throw (.empty text)

end AddressRange

end Reflash
