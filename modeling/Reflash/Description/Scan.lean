import Reflash.Text.Numeral

/-!
# Scanning chip descriptions

What descriptions are made of below the level of values: blanks and comments,
identifiers, numbers and quoted texts. A `Reader` takes something from the front of
the text, or refuses the text.

* `blank`: skips white space, line comments and nested block comments.
* `identifier`: a plain identifier, or a raw one behind `r#`.
* `eatWord`: a word that no identifier goes on with.
* `naturalNumber`: digits of radix 2, 8, 10 or 16, with underscores behind the first one.
* `quoted`: a text with escapes, or a raw one.
-/

namespace Reflash.Description

/-- Takes something from the front of a text. -/
abbrev Reader (α : Type) := StateT (List Char) Option α

/-- The text is no description. -/
def refuse {α : Type} : Reader α := fun _ => none

/-- The next character is not taken. -/
def peek : Reader (Option Char) := fun cs => some (cs.head?, cs)

/-- Takes the next character. -/
def next : Reader Char
  | [] => none
  | c :: cs => some (c, cs)

/-- Takes the word if the text starts with it. -/
def eat (word : String) : Reader Bool := fun cs =>
  let w := word.toList
  if w.isPrefixOf cs then some (true, cs.drop w.length) else some (false, cs)

/-- Takes the word, which has to be there. -/
def expect (word : String) : Reader Unit := do
  if ← eat word then pure () else refuse

/-- Takes the longest front of characters that satisfy `p`. -/
def takeWhile (p : Char → Bool) : Reader (List Char) := fun cs =>
  some (cs.takeWhile p, cs.dropWhile p)

/-- Takes something if it is there. -/
def optional {α : Type} (r : Reader α) : Reader (Option α) := fun cs =>
  match r cs with
  | some (a, rest) => some (some a, rest)
  | none => some (none, cs)

/-- The characters between tokens. -/
def isBlank (c : Char) : Bool := c = ' ' || c = '\t' || c = '\n' || c = '\r'

/-- Where a scan between tokens stands. -/
inductive Gap where
  /-- In white space. -/
  | white
  /-- In a comment up to the end of the line. -/
  | line
  /-- In a block comment, with so many others around it. -/
  | block (outer : Nat)

/-- What is behind white space and comments. A block comment has to end. -/
def afterGap : Gap → List Char → Option (List Char)
  | .white, '/' :: '/' :: cs => afterGap .line cs
  | .white, '/' :: '*' :: cs => afterGap (.block 0) cs
  | .white, '/' :: _ => none
  | .white, c :: cs => if isBlank c then afterGap .white cs else some (c :: cs)
  | .line, c :: cs => afterGap (if c = '\n' then .white else .line) cs
  | .block outer, '/' :: '*' :: cs => afterGap (.block (outer + 1)) cs
  | .block 0, '*' :: '/' :: cs => afterGap .white cs
  | .block (outer + 1), '*' :: '/' :: cs => afterGap (.block outer) cs
  | .block outer, _ :: cs => afterGap (.block outer) cs
  | .block _, [] => none
  | _, [] => some []

/-- Skips white space and comments. -/
def blank : Reader Unit := fun cs => (afterGap .white cs).map fun rest => ((), rest)

/-- A comma with blanks around it, if there is one. -/
def comma : Reader Bool := do
  blank
  if ← eat "," then
    blank
    pure true
  else pure false

/-- An ASCII letter or an underscore. -/
def isIdentifierStart (c : Char) : Bool := c.isAlpha || c = '_'

/-- What an identifier goes on with. -/
def isIdentifierRest (c : Char) : Bool := c.isAlphanum || c = '_'

/-- What a raw identifier is made of. -/
def isRawIdentifier (c : Char) : Bool := isIdentifierRest c || c = '.' || c = '+' || c = '-'

/-- A plain identifier. It is refused if a raw identifier would go on. -/
def plainIdentifier : Reader String := fun cs =>
  let (word, rest) := cs.span isIdentifierRest
  match rest with
  | c :: _ => if isRawIdentifier c then none else some (String.ofList word, rest)
  | [] => some (String.ofList word, rest)

/-- An identifier. An `r` in front of a quote starts no identifier, `r#` starts a raw one. -/
def identifier : Reader String := fun cs =>
  match cs with
  | ['r'] => none
  | 'r' :: '"' :: _ => none
  | 'r' :: '#' :: rest =>
    let (word, rest) := rest.span isRawIdentifier
    if word.isEmpty then none else some (String.ofList word, rest)
  | c :: _ => if isIdentifierStart c then plainIdentifier cs else none
  | [] => none

/-- Takes the word if it stands alone, not as the front of an identifier. -/
def eatWord (word : String) : Reader Bool := fun cs =>
  let w := word.toList
  let rest := cs.drop w.length
  if w.isPrefixOf cs && !rest.head?.any isIdentifierRest then some (true, rest)
  else some (false, cs)

/-- Takes the first of the words that stands alone. -/
def eatOneOf : List String → Reader Bool
  | [] => pure false
  | word :: words => do
    if ← eatWord word then pure true else eatOneOf words

/-- The words for numbers that are not finite. -/
def nonFiniteWords : List String := ["inf", "+inf", "-inf", "NaN", "+NaN", "-NaN"]

/-- A hexadecimal digit of either case. -/
def isHexDigit (c : Char) : Bool := (Text.digitValue? 16 c).isSome

/-- What an integer is made of. -/
def isIntegerChar (c : Char) : Bool := isHexDigit c || c = '_'

/-- What a number with a fraction or an exponent is made of. -/
def isDecimalChar (c : Char) : Bool :=
  c.isDigit || c = '.' || c = 'E' || c = 'e' || c = '+' || c = '-' || c = '_'

/-- The number that digits of the radix stand for, if it does not exceed the limit. -/
def digitsValue? (radix limit : Nat) (cs : List Char) : Option Nat :=
  cs.foldlM (fun n c => do
    let d ← Text.digitValue? radix c
    if n * radix + d ≤ limit then some (n * radix + d) else none) 0

/-- The radix that a number starts with, and what is behind its sign. -/
def radixOf : List Char → Nat × List Char
  | '0' :: 'x' :: rest => (16, rest)
  | '0' :: 'b' :: rest => (2, rest)
  | '0' :: 'o' :: rest => (8, rest)
  | cs => (10, cs)

/-- An integer without a sign that does not exceed the limit. Underscores are skipped, but none
may come first. -/
def naturalNumber (limit : Nat) : Reader Nat := fun cs =>
  let (radix, cs) := radixOf cs
  let (digits, rest) := cs.span isIntegerChar
  match digits with
  | [] | '_' :: _ => none
  | _ => (digitsValue? radix limit (digits.filter (· ≠ '_'))).map fun n => (n, rest)

/-- Digits, which may be missing, a point and an exponent, with a digit before the exponent. -/
def isDecimal (cs : List Char) : Bool :=
  let unsigned := match cs with
    | '+' :: rest | '-' :: rest => rest
    | rest => rest
  let (whole, rest) := unsigned.span Char.isDigit
  let (fraction, rest) := match rest with
    | '.' :: rest => rest.span Char.isDigit
    | rest => ([], rest)
  let exponent := match rest with
    | [] => true
    | e :: rest =>
      let digits := match rest with
        | '+' :: rest | '-' :: rest => rest
        | rest => rest
      (e = 'e' || e = 'E') && !digits.isEmpty && digits.all Char.isDigit
  !(whole.isEmpty && fraction.isEmpty) && exponent

/-- A number with a fraction or an exponent. -/
def decimalNumber : Reader Unit := fun cs =>
  let (digits, rest) := cs.span isDecimalChar
  if isDecimal digits then some ((), rest) else none

/-- The character of an escape behind the backslash: a letter, `x` and two hexadecimal digits,
or `u` and up to six of them in braces. -/
def escaped : Reader Char := do
  match ← next with
  | '\'' => pure '\''
  | '"' => pure '"'
  | '\\' => pure '\\'
  | 'n' => pure '\n'
  | 'r' => pure '\r'
  | 't' => pure '\t'
  | '0' => pure '\x00'
  | 'x' =>
    let digits := [← next, ← next]
    match digitsValue? 16 0xFF digits with
    | some n => pure (Char.ofNat n)
    | none => refuse
  | 'u' =>
    expect "\x7b"
    let digits ← takeWhile isHexDigit
    expect "\x7d"
    match digitsValue? 16 0x10FFFF digits with
    | some n =>
      if 0 < digits.length ∧ digits.length ≤ 6 ∧ n.isValidChar then pure (Char.ofNat n) else refuse
    | none => refuse
  | _ => refuse

/-- The text up to the closing quote, with less than `n` characters or escapes in it. -/
def quotedRest : Nat → Reader (List Char)
  | 0 => refuse
  | n + 1 => do
    match ← next with
    | '"' => pure []
    | '\\' =>
      let c ← escaped
      return c :: (← quotedRest n)
    | c => return c :: (← quotedRest n)

/-- The text before the first place where `ending` stands, and what is behind `ending`. -/
def splitAtWord (ending : List Char) : List Char → Option (List Char × List Char)
  | [] => none
  | c :: cs =>
    if ending.isPrefixOf (c :: cs) then some ([], (c :: cs).drop ending.length)
    else (splitAtWord ending cs).map fun (before, behind) => (c :: before, behind)

/-- A raw text: hash signs, a quote, the text up to a quote with as many hash signs. -/
def rawRest : Reader (List Char) := do
  let hashes ← takeWhile (· = '#')
  expect "\""
  fun cs => splitAtWord ('"' :: hashes) cs

/-- A text in quotes, with less than `n` characters or escapes in it if it is not raw. -/
def quoted (n : Nat) : Reader String := do
  if ← eat "\"" then return String.ofList (← quotedRest n)
  else if ← eat "r" then
    return String.ofList (← rawRest)
  else refuse

/-- A character between apostrophes. -/
def apostrophed : Reader Char := do
  expect "'"
  let c ← match ← next with
    | '\\' => escaped
    | '\'' => refuse
    | c => pure c
  expect "'"
  pure c

end Reflash.Description
