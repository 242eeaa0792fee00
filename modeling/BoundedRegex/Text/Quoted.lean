import BoundedRegex.Text.Blank
import BoundedRegex.Text.Hex

/-!
# Quoted byte strings

A byte string in double quotes, as readable as it can be.  Where the bytes are UTF-8, characters
that show stand for themselves and others are escaped; any other byte is escaped as two
hexadecimal digits.

Which characters show is a matter of the tables of characters there are, and `shows` is but one
answer.  What is proved of texts with quoted parts is proved of any `Quoting`, which need only end
what it quotes with a quotation mark.
-/

namespace BoundedRegex.Text

/-- The UTF-8 character at the start of a text, and its length in bytes. -/
def utf8? (text : List UInt8) : Option (Char × Nat) :=
  (ByteArray.mk (text.take 4).toArray).utf8DecodeChar? 0 |>.map fun c => (c, c.utf8Size)

/-- Intervals of characters beyond ASCII that do not show: controls, format characters, private
use, and the combining marks of general use. -/
def hiddenRanges : List (Nat × Nat) :=
  [(0x80, 0x9f), (0xad, 0xad), (0x300, 0x36f), (0x483, 0x489), (0x591, 0x5bd), (0x600, 0x605),
    (0x610, 0x61a), (0x61c, 0x61c), (0x64b, 0x65f), (0x6dd, 0x6dd), (0x70f, 0x70f),
    (0x180b, 0x180f), (0x1ab0, 0x1ace), (0x1dc0, 0x1dff), (0x200b, 0x200f), (0x202a, 0x202e),
    (0x2060, 0x206f), (0x20d0, 0x20f0), (0xe000, 0xf8ff), (0xfe00, 0xfe0f), (0xfe20, 0xfe2f),
    (0xfeff, 0xfeff), (0xfff0, 0xfffb), (0xfffe, 0xffff), (0xe0000, 0x10ffff)]

/-- Whether a character shows.  Of the blanks, only the space does. -/
def shows (c : Char) : Bool :=
  c = ' ' || !(isBlank c || hiddenRanges.any fun (lo, hi) => lo ≤ c.toNat && c.toNat ≤ hi)

/-- A byte that has no readable form. -/
def escapedByte (b : UInt8) : String :=
  "\\x" ++ hex 2 b.toNat

/-- A character inside quotes. -/
def quotedChar (c : Char) : String :=
  if c.toNat = 0 then "\\0"
  else if c = '\t' then "\\t"
  else if c = '\n' then "\\n"
  else if c = '\r' then "\\r"
  else if c = '"' || c = '\\' || c.toNat = 0x27 then "\\" ++ c.toString
  else if c.toNat < 0x20 || c.toNat = 0x7f then escapedByte c.toUInt8
  else if shows c then c.toString
  else "\\u\x7b" ++ hex 1 c.toNat ++ "\x7d"

/-- The inside of the quotes. -/
def quotedInside : List UInt8 → List String
  | [] => []
  | b :: rest =>
    match utf8? (b :: rest) with
    | some (c, n) => quotedChar c :: quotedInside (rest.drop (n - 1))
    | none => escapedByte b :: quotedInside rest
termination_by text => text.length
decreasing_by
  · simp only [List.length_cons, List.length_drop]; omega
  · simp

/-- A byte string in quotes. -/
def quoted (text : List UInt8) : String :=
  "\"" ++ String.join (quotedInside text) ++ "\""

/-! ### Any way to quote -/

/-- A way to write byte strings in quotes. -/
structure Quoting where
  quote : List UInt8 → String
  closes (text : List UInt8) : ∃ inside, (quote text).toList = inside ++ ['"']

/-- Quoting by `quoted`. -/
def quoting : Quoting where
  quote := quoted
  closes text := ⟨'"' :: (String.join (quotedInside text)).toList, by simp [quoted]⟩

end BoundedRegex.Text
