import Reflash.Chip.Basic
import Reflash.Chip.Size
import Reflash.Description.Read

/-!
# Vendor definitions

A chip description defines the chips of one vendor. Reading one takes a value apart
into definitions; making chips of these checks every chip.

* `VendorDefinition.ofText?`: reads a description.
* `VendorDefinition.chips?`: all chips of the vendor, or what is wrong with the first bad one.
-/

namespace Reflash

open Description (Value)

/-- Blocks of one size. -/
structure RegionDefinition where
  size : Size
  count : Nat
deriving DecidableEq, Repr

/-- An erase function as it is described. -/
structure FunctionDefinition where
  supported : Bool
  regions : List RegionDefinition
deriving DecidableEq, Repr

/-- A chip as it is described. -/
structure ChipDefinition where
  name : String
  totalSize : Size
  pageSize : Nat
  erasedValue : UInt8
  granularity : Granularity
  functions : List FunctionDefinition
deriving DecidableEq, Repr

/-- The chips of one vendor. -/
structure VendorDefinition where
  vendor : String
  chips : List ChipDefinition
deriving DecidableEq, Repr

/-- Why a description that can be read defines no chips. -/
inductive DefinitionError where
  /-- An erase function has too many regions. -/
  | tooManyRegions (count : Nat)
  /-- A chip has a defect. -/
  | defective (vendor name : String) (defect : ChipDefect)
deriving DecidableEq, Repr

/-- The error in words. -/
def DefinitionError.message : DefinitionError → String
  | tooManyRegions n =>
    s!"{n} erase regions defined, at most {EraseFunction.maxRegions} supported"
  | defective vendor name d => s!"{vendor} {name}: {d.message}"

namespace Description

/-- The largest number of a description. -/
def maxNumber : Nat := 0xFFFFFFFF

/-- The values of all fields of that name. -/
def occurrences (fields : List (String × Value)) (name : String) : List Value :=
  (fields.filter (·.1 = name)).map (·.2)

/-- The value of a field that has to be there once. -/
def required {α : Type} (fields : List (String × Value)) (name : String)
    (decode : Value → Option α) : Option α :=
  match occurrences fields name with
  | [v] => decode v
  | _ => none

/-- The value of a field that may be left out. -/
def defaulted {α : Type} (fields : List (String × Value)) (name : String) (default : α)
    (decode : Value → Option α) : Option α :=
  match occurrences fields name with
  | [] => some default
  | [v] => decode v
  | _ => none

/-- The fields of a record that has either no name or this one. -/
def fieldsOf (name : String) : Value → Option (List (String × Value))
  | .record none fields => some fields
  | .record (some n) fields => if n = name then some fields else none
  | _ => none

/-- A number up to a limit. -/
def natural (limit : Nat) : Value → Option Nat
  | .natural n => if n ≤ limit then some n else none
  | _ => none

/-- A text. -/
def text : Value → Option String
  | .text s => some s
  | _ => none

/-- A truth value. -/
def bool : Value → Option Bool
  | .bool b => some b
  | _ => none

/-- A list of things. -/
def listOf {α : Type} (decode : Value → Option α) : Value → Option (List α)
  | .list items => items.mapM decode
  | _ => none

/-- A number of units, such as `KiB(64)`. -/
def size : Value → Option Size
  | .tuple (some unit) [v] => do
    let unit ← SizeUnit.ofName? unit
    let count ← natural maxNumber v
    some ⟨count, unit⟩
  | _ => none

/-- A write granularity by its name. -/
def granularity : Value → Option Granularity
  | .unit (some name) => Granularity.ofName? name
  | _ => none

/-- A region of an erase function. -/
def region (v : Value) : Option RegionDefinition := do
  let fields ← fieldsOf "RegionDef" v
  let size ← required fields "size" size
  let count ← required fields "count" (natural maxNumber)
  some ⟨size, count⟩

/-- An erase function. -/
def function (v : Value) : Option FunctionDefinition := do
  let fields ← fieldsOf "EraseBlockDef" v
  let supported ← defaulted fields "supported" true bool
  let regions ← required fields "regions" (listOf region)
  some ⟨supported, regions⟩

/-- A chip. -/
def chip (v : Value) : Option ChipDefinition := do
  let fields ← fieldsOf "ChipDef" v
  let name ← required fields "name" text
  let totalSize ← required fields "total_size" size
  let pageSize ← defaulted fields "page_size" 256 (natural maxNumber)
  let erasedValue ← defaulted fields "erased_value" 255 (natural 255)
  let granularity ← defaulted fields "write_granularity" default granularity
  let functions ← required fields "erase_blocks" (listOf function)
  some ⟨name, totalSize, pageSize, UInt8.ofNat erasedValue, granularity, functions⟩

/-- The chips of a vendor. -/
def vendor (v : Value) : Option VendorDefinition := do
  let fields ← fieldsOf "VendorDef" v
  let vendor ← required fields "vendor" text
  let chips ← required fields "chips" (listOf chip)
  some ⟨vendor, chips⟩

end Description

/-- The region. -/
def RegionDefinition.region (r : RegionDefinition) : Region := ⟨r.size.bytes, r.count⟩

/-- The erase function, if it has not too many regions. -/
def FunctionDefinition.function? (f : FunctionDefinition) : Except DefinitionError EraseFunction :=
  if EraseFunction.maxRegions < f.regions.length then .error (.tooManyRegions f.regions.length)
  else
    let regions := f.regions.map RegionDefinition.region
    .ok { EraseFunction.ofRegions regions with supported := f.supported }

/-- The chip of a vendor, if its erase functions are good and it has no defect. -/
def ChipDefinition.chip? (vendor : String) (c : ChipDefinition) : Except DefinitionError Chip := do
  let eraseFunctions ← c.functions.mapM FunctionDefinition.function?
  let chip : Chip :=
    { vendor, name := c.name, totalSize := c.totalSize.bytes, pageSize := c.pageSize
      erasedValue := c.erasedValue, granularity := c.granularity, eraseFunctions }
  chip.validate.mapError (.defective vendor c.name)
  pure chip

namespace VendorDefinition

/-- Reads a description. -/
def ofText? (text : String) : Option VendorDefinition :=
  (Description.document text).bind Description.vendor

/-- All chips of the vendor, or what is wrong with the first bad one. -/
def chips? (d : VendorDefinition) : Except DefinitionError (List Chip) :=
  d.chips.mapM (ChipDefinition.chip? d.vendor)

end VendorDefinition

end Reflash
