import BoundedRegex.ByteSet.Basic

/-!
# Named classes

The classes that a pattern can name after a backslash, alone or inside a bracketed set.  A negated
class adds to a set every byte outside the class; it leaves the polarity of the set alone.
-/

namespace BoundedRegex

/-- A class of ASCII bytes with a name of its own. -/
inductive NamedClass where
  | digit
  | alphanumeric
  | lowercase
  | letter
  | whitespace
  | lineBreak
  | identifierStart
  | identifierPart
deriving DecidableEq

namespace NamedClass

/-- The intervals of a class. -/
def ranges : NamedClass → List (Char × Char)
  | digit => [('0', '9')]
  | alphanumeric => [('0', '9'), ('A', 'Z'), ('a', 'z')]
  | lowercase => [('a', 'z')]
  | letter => [('A', 'Z'), ('a', 'z')]
  | whitespace => [('\t', '\r'), (' ', ' ')]
  | lineBreak => [('\n', '\n'), ('\r', '\r')]
  | identifierStart => [('A', 'Z'), ('_', '_'), ('a', 'z')]
  | identifierPart => [('0', '9'), ('A', 'Z'), ('_', '_'), ('a', 'z')]

/-- The bytes of a class, as a set. -/
def toSet (c : NamedClass) : ByteSet :=
  c.ranges.foldl (fun s (lo, hi) => s.insertRange lo.toUInt8 hi.toUInt8) ByteSet.empty

end NamedClass

/-- Adds the bytes of a class, or all the others when `negated`. -/
def ByteSet.insertClass (s : ByteSet) (c : NamedClass) (negated : Bool) : ByteSet :=
  { s with bits := s.bits ||| (if negated then ~~~c.toSet.bits else c.toSet.bits) }

end BoundedRegex
