/-!
# Values of chip descriptions

Chip descriptions are written in a notation with named records, lists, maps and
scalars. A `Value` is what such a text stands for, as far as descriptions tell
texts apart.
-/

namespace Reflash.Description

/-- A value of a description. Records, tuples and units may carry a name. -/
inductive Value where
  /-- An integer without a sign. -/
  | natural (n : Nat)
  /-- A number with a sign, a fraction or an exponent, or one that is not finite. -/
  | number
  | bool (b : Bool)
  | text (s : String)
  | char (c : Char)
  /-- An optional value. -/
  | option (v : Option Value)
  | unit (name : Option String)
  | tuple (name : Option String) (items : List Value)
  | record (name : Option String) (fields : List (String × Value))
  | list (items : List Value)
  | map (entries : List (Value × Value))
deriving Inhabited

end Reflash.Description
