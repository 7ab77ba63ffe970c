import Reflash.Description.Scan
import Reflash.Description.Value

/-!
# Reading chip descriptions

A description is a value, with blanks around it and attributes in front.

* `Context`: what is the same for all values of a text.
* `Nested`: what the limit on nesting leaves to be read inside a value.
* `value`: the value at the front of the text, nested up to a limit.
* `attributes`: what a text enables for its value.
* `document`: a whole text.
-/

namespace Reflash.Description

/-- The largest integer without a sign; larger ones are read as decimal numbers. -/
def maxNatural : Nat := 0xFFFFFFFFFFFFFFFF

/-- The greatest distance of an integer with a sign from zero, below and above zero. -/
def maxSigned (negative : Bool) : Nat := if negative then 0x8000000000000000 else 0x7FFFFFFFFFFFFFFF

/-- A number. It is a decimal number if more of the text reads as one than as an integer, or if
the integer is out of bounds. -/
def number : Reader Value := fun cs =>
  let (negative, signed, digits) := match cs with
    | '-' :: rest => (true, true, rest)
    | '+' :: rest => (false, true, rest)
    | _ => (false, false, cs)
  let decimal := (decimalNumber cs).map fun ((), rest) => (Value.number, rest)
  if (digits.takeWhile isIntegerChar).length < (digits.takeWhile isDecimalChar).length then decimal
  else if signed then
    match naturalNumber (maxSigned negative) digits with
    | some (_, rest) => some (.number, rest)
    | none => decimal
  else
    match naturalNumber maxNatural cs with
    | some (n, rest) => some (.natural n, rest)
    | none => decimal

/-- Items with commas between them, up to the closing character, which is not taken. Less than
`n` items; one comma may follow the last. -/
def separated {α : Type} (close : Char) (item : Reader α) : Nat → Bool → Reader (List α)
  | 0, _ => refuse
  | n + 1, afterComma => do
    blank
    match ← peek with
    | none => refuse
    | some c =>
      if c = close then pure []
      else if afterComma then
        let x ← item
        let more ← comma
        return x :: (← separated close item n more)
      else refuse

/-- What is the same for all values of a text. -/
structure Context where
  /-- More than the characters of the text, and so more than the items of any container in it. -/
  bound : Nat
  /-- An optional value needs no parentheses. -/
  bare : Bool

/-- What may be read inside a value. -/
structure Nested extends Context where
  /-- There may be a container, be it an empty one. -/
  container : Bool
  /-- An item of a container. -/
  item : Reader Value
  /-- The value behind the word `Some`. -/
  wrapped : Reader Value

/-- The items of a container, if there may be one, up to and with the closing character. An item
takes one character at least. -/
def Nested.enclosed {α : Type} (nested : Nested) (close : Char) (item : Reader α) :
    Reader (List α) := do
  if nested.container then
    let items ← separated close item nested.bound true
    expect (String.singleton close)
    pure items
  else refuse

/-- A colon with blanks around it. -/
def colon : Reader Unit := do
  blank
  expect ":"
  blank

/-- A field of a record. -/
def field (inner : Reader Value) : Reader (String × Value) := do
  let name ← identifier
  colon
  return (name, ← inner)

/-- An entry of a map. -/
def entry (inner : Reader Value) : Reader (Value × Value) := do
  let key ← inner
  colon
  return (key, ← inner)

/-- The text goes on with a field name and a colon. -/
def startsField : Reader Bool := fun cs =>
  let found : Reader Bool := do
    blank
    match ← optional identifier with
    | none => pure false
    | some _ =>
      blank
      return (← peek) = some ':'
  (found cs).map fun (b, _) => (b, cs)

/-- A unit, a tuple or a record, of which the name was read. -/
def Nested.named (nested : Nested) (name : Option String) : Reader Value := do
  if ← eat "(" then
    if ← startsField then return .record name (← nested.enclosed ')' (field nested.item))
    else return .tuple name (← nested.enclosed ')' nested.item)
  else return .unit name

/-- An optional value behind the word `Some`. -/
def Nested.someValue (nested : Nested) : Reader Value := do
  blank
  if ← eat "(" then
    blank
    let v ← nested.wrapped
    discard comma
    expect ")"
    return .option (some v)
  else if nested.bare then return .option (some (← nested.wrapped))
  else refuse

/-- A value with these readers for what is inside it. -/
def Nested.value (nested : Nested) : Reader Value := do
  if ← eatWord "true" then return .bool true
  if ← eatWord "false" then return .bool false
  if ← eatWord "Some" then return ← nested.someValue
  if ← eatWord "None" then return .option none
  if ← eat "()" then return .unit none
  if ← eatOneOf nonFiniteWords then return .number
  match ← optional identifier with
  | some name =>
    blank
    nested.named (some name)
  | none =>
    match ← peek with
    | some '(' => nested.named none
    | some '[' =>
      expect "["
      return .list (← nested.enclosed ']' nested.item)
    | some '\x7b' =>
      expect "\x7b"
      return .map (← nested.enclosed '\x7d' (entry nested.item))
    | some '"' => return .text (← quoted nested.bound)
    | some 'r' => return .text (← quoted nested.bound)
    | some '\'' => return .char (← apostrophed)
    | some c => if c.isDigit || c = '+' || c = '-' || c = '.' then number else refuse
    | none => refuse

/-- The value at the front of the text. A container takes a level and each of its items another
one, an optional value takes one. -/
def value (c : Context) : Nat → Reader Value
  | 0 => Nested.value ⟨c, false, refuse, refuse⟩
  | 1 => Nested.value ⟨c, true, refuse, value c 0⟩
  | depth + 2 => Nested.value ⟨c, true, value c depth, value c (depth + 1)⟩

/-- Values may be nested so many levels deep. -/
def maxDepth : Nat := 128

/-- What a text may enable for its value. -/
inductive Attribute where
  | unwrapNewtypes
  /-- An optional value needs no parentheses. -/
  | implicitSome
  | unwrapVariantNewtypes
deriving DecidableEq, Repr

/-- The attribute of that name. -/
def Attribute.ofName? : String → Option Attribute
  | "unwrap_newtypes" => some unwrapNewtypes
  | "implicit_some" => some implicitSome
  | "unwrap_variant_newtypes" => some unwrapVariantNewtypes
  | _ => none

/-- Takes the words with blanks behind each. -/
def expectAll : List String → Reader Unit
  | [] => pure ()
  | w :: ws => do
    expect w
    blank
    expectAll ws

/-- At most `n` attributes, with commas between them. -/
def attributeList : Nat → Reader (List Attribute)
  | 0 => refuse
  | n + 1 => do
    match Attribute.ofName? (← identifier) with
    | none => refuse
    | some a =>
      let more ← comma
      let goesOn := (← peek).any isIdentifierRest
      if more && goesOn then return a :: (← attributeList n)
      else if goesOn then refuse
      else return [a]

/-- The attributes of less than `n` lines, each of at most `bound` attributes. -/
def attributes (bound : Nat) : Nat → Reader (List Attribute)
  | 0 => refuse
  | n + 1 => do
    if (← peek) = some '#' then
      expectAll ["#", "!", "[", "enable", "("]
      let enabled ← attributeList bound
      blank
      expectAll [")", "]"]
      return enabled ++ (← attributes bound n)
    else return []

/-- A whole text as a description. -/
def document (text : String) : Option Value :=
  let cs := text.toList
  let bound := cs.length + 1
  let reader : Reader Value := do
    blank
    let enabled ← attributes bound bound
    let v ← value ⟨bound, enabled.contains .implicitSome⟩ maxDepth
    blank
    pure v
  match reader cs with
  | some (v, []) => some v
  | _ => none

end Reflash.Description
