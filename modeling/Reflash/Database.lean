import Reflash.Description.Vendor
import Reflash.Files
import Reflash.Text.Lowercase

/-!
# The chip database

The database holds the chips of the descriptions that were loaded, in the order in
which they were loaded. A description is loaded as a whole or not at all.

* `Database.load`: the chips of one description.
* `Database.findExact?`: the first chip of a name.
* `Database.findByVendor`: the chips of the vendors whose names have a part in common.
-/

namespace Reflash

/-- Why descriptions could not be loaded. -/
inductive LoadError where
  | file (cause : FileError)
  /-- The text is no description. -/
  | unreadable
  | invalid (cause : DefinitionError)
deriving DecidableEq, Repr

/-- The error in words. -/
def LoadError.message : LoadError → String
  | file e => s!"I/O error: {e.message}"
  | unreadable => "Parse error: not a chip description"
  | invalid e => s!"Validation error: {e.message}"

/-- The chips that are known. -/
structure Database where
  chips : List Chip := []
deriving Repr, Inhabited

namespace Database

/-- Adds the chips of a vendor. Gives their number, or the unchanged database with the error. -/
def addVendor (d : VendorDefinition) (db : Database) : Except LoadError Nat × Database :=
  match d.chips? with
  | .error e => (.error (.invalid e), db)
  | .ok chips => (.ok chips.length, ⟨db.chips ++ chips⟩)

/-- Adds the chips of the vendor that a reader of descriptions finds in a text. -/
def loadWith (read : String → Option VendorDefinition) (text : String) (db : Database) :
    Except LoadError Nat × Database :=
  match read text with
  | none => (.error .unreadable, db)
  | some d => addVendor d db

/-- Adds the chips of a description. -/
def load (text : String) (db : Database) : Except LoadError Nat × Database :=
  loadWith VendorDefinition.ofText? text db

/-- Adds the chips of the vendor that a reader of descriptions finds in the text of a file. -/
def loadFileWith (read : String → Option VendorDefinition) (fs : Files) (path : String)
    (db : Database) : Except LoadError Nat × Database :=
  match fs.readText path with
  | .error e => (.error (.file e), db)
  | .ok text => loadWith read text db

/-- Adds the chips of the description in a file. -/
def loadFile (fs : Files) (path : String) (db : Database) : Except LoadError Nat × Database :=
  loadFileWith VendorDefinition.ofText? fs path db

/-- Adds the chips of the descriptions in files, after `total` chips. The first error ends it;
what was added before stays. -/
def loadFiles (fs : Files) : List String → Nat → Database → Except LoadError Nat × Database
  | [], total, db => (.ok total, db)
  | path :: paths, total, db =>
    match loadFile fs path db with
    | (.error e, db) => (.error e, db)
    | (.ok n, db) => loadFiles fs paths (total + n) db

/-- The extension of the files that hold descriptions. -/
def fileExtension : String := "ron"

/-- Adds the chips of all descriptions directly in a directory. -/
def loadDirectory (fs : Files) (path : String) (db : Database) :
    Except LoadError Nat × Database :=
  match fs.list path with
  | .error e => (.error (.file e), db)
  | .ok names =>
    let described := names.filter fun name => Files.extension? name = some fileExtension
    loadFiles fs (described.map fun name => s!"{path}/{name}") 0 db

/-- The first chip of that name, regardless of the case of ASCII letters. -/
def findExact? (db : Database) (name : String) : Option Chip :=
  db.chips.find? fun c => Text.equalIgnoringAsciiCase c.name name

/-- The chips whose vendor has `part` in its name, regardless of case. -/
def findByVendor (db : Database) (part : String) : List Chip :=
  let part := Text.lowercase part
  db.chips.filter fun c => Text.occursIn part (Text.lowercase c.vendor)

end Database

end Reflash
