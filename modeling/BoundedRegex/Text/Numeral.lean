import BoundedRegex.Text.Hex

/-!
# Numerals

Unsigned numbers in decimal or hexadecimal digits.  A plus sign in front and leading zeros are
allowed; a number beyond the bound is no number.
-/

namespace BoundedRegex.Text

/-- The number that digits of a base stand for, added to what stands before them. -/
def digitsValue? (base : Nat) : Nat → List Char → Option Nat
  | n, [] => some n
  | n, c :: rest =>
    match hexValue? c with
    | some d => if d < base then digitsValue? base (base * n + d) rest else none
    | none => none

/-- The number that a numeral of a base stands for, if it is at most `bound`. -/
def numeral? (base bound : Nat) (text : List Char) : Option Nat :=
  let digits := match text with
    | '+' :: rest => rest
    | _ => text
  if digits = [] then none
  else (digitsValue? base 0 digits).filter (· ≤ bound)

/-- The largest size that can be written: 64 bits. -/
def maxSize : Nat := 0xffffffffffffffff

/-- The size that a decimal numeral stands for. -/
def size? (text : List Char) : Option Nat :=
  numeral? 10 maxSize text

end BoundedRegex.Text
