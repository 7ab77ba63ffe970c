/-!
# Hexadecimal numerals

The numerals of messages: `address` has eight upper-case digits at least, `byte`
two, and `short` as few lower-case digits as the number needs.
-/

namespace Reflash.Text

/-- The hexadecimal digits of `n`, lower-case, without leading zeros. -/
def hexDigits (n : Nat) : List Char := Nat.toDigits 16 n

/-- `n` in upper-case hexadecimal, filled up with zeros to `width` digits. -/
def paddedHex (width n : Nat) : String :=
  let digits := (hexDigits n).map Char.toUpper
  String.ofList (List.replicate (width - digits.length) '0' ++ digits)

/-- An address, such as `0x00001FFF`. -/
def address (n : Nat) : String := "0x" ++ paddedHex 8 n

/-- A byte, such as `0x0A`. -/
def byte (b : UInt8) : String := "0x" ++ paddedHex 2 b.toNat

/-- A length, such as `0x1000`. -/
def short (n : Nat) : String := "0x" ++ String.ofList (hexDigits n)

end Reflash.Text
