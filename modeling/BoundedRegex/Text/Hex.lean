/-!
# Hexadecimal text

Numbers in lower-case hexadecimal, with a least number of digits, and the value of a digit.
-/

namespace BoundedRegex.Text

/-- `n` in base 16, filled up with zeros on the left to `width` digits. -/
def hex (width n : Nat) : String :=
  String.ofList ((Nat.toDigits 16 n).leftpad width '0')

/-- A byte as `0x` and two digits. -/
def hexByte (b : UInt8) : String :=
  "0x" ++ hex 2 b.toNat

/-- The value of a hexadecimal digit of either case. -/
def hexValue? (c : Char) : Option Nat :=
  if '0' ≤ c ∧ c ≤ '9' then some (c.toNat - '0'.toNat)
  else if 'a' ≤ c ∧ c ≤ 'f' then some (c.toNat - 'a'.toNat + 10)
  else if 'A' ≤ c ∧ c ≤ 'F' then some (c.toNat - 'A'.toNat + 10)
  else none

/-- Bytes as pairs of digits, with nothing between them. -/
def hexDump (bytes : List UInt8) : String :=
  String.join (bytes.map fun b => hex 2 b.toNat)

end BoundedRegex.Text
