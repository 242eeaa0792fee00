import BoundedRegex.Code.Listing

/-!
# Compiled patterns

A compiled pattern is code with what a caller must know to size the buffers of a matcher.  Its
bytes are a header and the code:

* offset 0: `BRX`, and the version of the format;
* offset 4: the length of the code, 16 bits;
* offset 6: the scratch depth, 16 bits;
* offset 8: the number of captures;
* offset 9: one bit per capture, in whole bytes, set for those inside a loop;
* the code.
-/

namespace BoundedRegex

/-- The bytes that start every compiled pattern. -/
def magic : List UInt8 :=
  "BRX".toUTF8.toList

/-- The version of the format. -/
def formatVersion : UInt8 := 1

/-- The length of the header but for the bits of the captures. -/
def fixedHeaderLength : Nat := 9

/-- The bytes that `captures` bits take. -/
def captureBytes (captures : Nat) : Nat :=
  (captures + 7) / 8

/-- The length of the header of a pattern with `captures` captures. -/
def headerLength (captures : Nat) : Nat :=
  fixedHeaderLength + captureBytes captures

/-- The length of the longest header. -/
def maxHeaderLength : Nat := fixedHeaderLength + 32

/-- A compiled pattern. -/
structure Regex where
  code : List UInt8
  /-- The most frames that matching can have alive at one time. -/
  scratchDepth : UInt16
  captures : UInt8
  /-- Bit `i` is set when capture `i` is inside a loop that can iterate more than once. -/
  loopBound : Nat
  code_le : code.length ≤ maxCodeLength
  loopBound_lt : loopBound < Nat.pow 256 (captureBytes captures.toNat)
deriving DecidableEq

namespace Regex

/-- The header. -/
def header (r : Regex) : List UInt8 :=
  magic ++ [formatVersion] ++ LittleEndian.encode 2 r.code.length ++
    LittleEndian.encode 2 r.scratchDepth.toNat ++ [r.captures] ++
    LittleEndian.encode (captureBytes r.captures.toNat) r.loopBound

/-- The bytes of a compiled pattern. -/
def toBytes (r : Regex) : List UInt8 :=
  r.header ++ r.code

/-- Whether capture `i` is inside a loop that can iterate more than once, and so can have any
number of spans in a match. -/
def captureInLoop (r : Regex) (i : Nat) : Bool :=
  i < r.captures.toNat && r.loopBound.testBit i

/-- The captures that are inside such a loop. -/
def loopCaptures (r : Regex) : List Nat :=
  (List.range r.captures.toNat).filter r.captureInLoop

/-- How many captures are outside loops.  Each has one span at most in a match. -/
def fixedCaptureSlots (r : Regex) : Nat :=
  r.captures.toNat - r.loopCaptures.length

/-- The listing of the code. -/
def listing (r : Regex) : String :=
  BoundedRegex.listing r.code

/-- The sizes of a compiled pattern, on a line. -/
def describe (r : Regex) : String :=
  "Regex \x7b code_len: " ++ toString r.code.length ++ ", scratch_depth: " ++
    toString r.scratchDepth.toNat ++ ", num_captures: " ++ toString r.captures.toNat ++ " \x7d"

end Regex

end BoundedRegex
