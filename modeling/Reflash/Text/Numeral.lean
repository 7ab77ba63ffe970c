/-!
# Numerals

Reads unsigned numerals of a radix up to a limit. One plus sign may stand in front.

* `readDigits`: digits left to right; the first fault decides which error it is.
* `readNumeral`: a whole numeral.
-/

namespace Reflash.Text

/-- What is wrong with a numeral. -/
inductive NumeralError where
  | empty
  | invalidDigit
  | tooLarge
deriving DecidableEq, Repr

/-- The error in words. -/
def NumeralError.message : NumeralError → String
  | empty => "cannot parse integer from empty string"
  | invalidDigit => "invalid digit found in string"
  | tooLarge => "number too large to fit in target type"

/-- The value of a digit of either case, if it is one of the radix. -/
def digitValue? (radix : Nat) (c : Char) : Option Nat :=
  let value :=
    if '0' ≤ c ∧ c ≤ '9' then c.toNat - '0'.toNat
    else if 'a' ≤ c ∧ c ≤ 'z' then c.toNat - 'a'.toNat + 10
    else if 'A' ≤ c ∧ c ≤ 'Z' then c.toNat - 'A'.toNat + 10
    else radix
  if value < radix then some value else none

/-- Appends digits to the number `n`, as long as it does not exceed the limit. -/
def readDigits (radix limit : Nat) : List Char → Nat → Except NumeralError Nat
  | [], n => .ok n
  | c :: cs, n =>
    match digitValue? radix c with
    | none => .error .invalidDigit
    | some d =>
      if n * radix + d ≤ limit then readDigits radix limit cs (n * radix + d)
      else .error .tooLarge

/-- Reads a numeral of the radix that does not exceed the limit. A sign alone is no numeral. -/
def readNumeral (radix limit : Nat) : List Char → Except NumeralError Nat
  | [] => .error .empty
  | '+' :: c :: cs => readDigits radix limit (c :: cs) 0
  | cs => readDigits radix limit cs 0

end Reflash.Text
