import BoundedRegex.Text.Hex

/-!
# Sets of bytes

A set is a map of 256 bits with a polarity: a byte belongs to an inverted set when its bit is
*not* set.  `members` lists what a set contains, `runs` lists the maximal intervals of its bits,
whatever the polarity.
-/

namespace BoundedRegex

/-- Every byte, in ascending order. -/
def allBytes : List UInt8 :=
  (List.range 256).map UInt8.ofNat

/-- The map of the `count` bits from `first` on; bits beyond the last one are dropped. -/
def bitSpan (first count : Nat) : BitVec 256 :=
  (BitVec.allOnes 256 >>> (256 - count)) <<< first

/-- A set of bytes. -/
structure ByteSet where
  bits : BitVec 256 := 0
  inverted : Bool := false
deriving DecidableEq

namespace ByteSet

/-- The set with no member. -/
def empty : ByteSet := {}

/-- Whether the bit of `b` is set, whatever the polarity. -/
def bit (s : ByteSet) (b : UInt8) : Bool :=
  s.bits.getLsbD b.toNat

/-- Membership: the bit, turned round in an inverted set. -/
def contains (s : ByteSet) (b : UInt8) : Bool :=
  s.bit b ^^ s.inverted

/-- The set of the other polarity. -/
def invert (s : ByteSet) : ByteSet :=
  { s with inverted := !s.inverted }

/-- Sets the bits from `lo` to `hi`, both included. -/
def insertRange (s : ByteSet) (lo hi : UInt8) : ByteSet :=
  { s with bits := s.bits ||| bitSpan lo.toNat (hi.toNat + 1 - lo.toNat) }

/-- Sets the bit of `b`. -/
def insert (s : ByteSet) (b : UInt8) : ByteSet :=
  s.insertRange b b

/-- The bytes the set contains, in ascending order. -/
def members (s : ByteSet) : List UInt8 :=
  allBytes.filter s.contains

/-- The only member of a set that has just one. -/
def single? (s : ByteSet) : Option UInt8 :=
  match s.members with
  | [b] => some b
  | _ => none

/-- Puts `b` in front of ascending intervals: it joins the first one when that starts right
after it. -/
def prependRun (b : UInt8) : List (UInt8 × UInt8) → List (UInt8 × UInt8)
  | (lo, hi) :: rest => if lo.toNat = b.toNat + 1 then (b, hi) :: rest else (b, b) :: (lo, hi) :: rest
  | [] => [(b, b)]

/-- The maximal intervals of bits that are set, ascending, whatever the polarity. -/
def runs (s : ByteSet) : List (UInt8 × UInt8) :=
  allBytes.foldr (fun b acc => if s.bit b then prependRun b acc else acc) []

/-- The set in brackets, a run as `lo-hi`, a run of one byte as that byte. -/
def describe (s : ByteSet) : String :=
  let run : UInt8 × UInt8 → String := fun (lo, hi) =>
    if lo = hi then Text.hexByte lo else Text.hexByte lo ++ "-" ++ Text.hexByte hi
  "[" ++ (if s.inverted then "^" else "") ++ String.join (s.runs.map run) ++ "]"

end ByteSet

end BoundedRegex
