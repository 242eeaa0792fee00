import BoundedRegex.Compile.Emission
import BoundedRegex.Regex.Basic

/-!
# Compiling a pattern

`Compiler.compile` takes a pattern and a buffer, and gives the compiled pattern that the buffer
holds at the end: the code is written at the start of the buffer, then moved to make room for the
header.
-/

namespace BoundedRegex

/-- A buffer of zeros.  No compiled pattern is larger than the longest header and the longest
code together, so a buffer beyond that size would serve no better. -/
def blankBuffer (size : Nat) : List UInt8 :=
  List.replicate (Nat.min size (maxHeaderLength + maxCodeLength)) 0

/-- How patterns are compiled. -/
structure Compiler where
  /-- How deep groups may be nested. -/
  maxNesting : Nat := 16

/-- The compiled pattern of a compilation that has ended, with footprint `f`, if there is room for
the header too; `length` is that of the pattern. -/
def Emission.toRegex (e : Emission) (f : Footprint) (length : Nat) : Except SyntaxError Regex :=
  if 65536 ≤ f.peak then .error ⟨.tooLarge, 0⟩
  else if e.buffer.size < headerLength e.captures + e.buffer.location then
    .error ⟨.tooLarge, length⟩
  else
    let captures := UInt8.ofNat e.captures
    .ok
      { code := e.buffer.code.toList
        scratchDepth := UInt16.ofNat f.peak
        captures
        loopBound := e.loopBound.toNat % Nat.pow 256 (captureBytes captures.toNat)
        code_le := e.buffer.code_le
        loopBound_lt := Nat.mod_lt _ (Nat.pow_pos (by decide)) }

/-- Compiles a pattern into a buffer, whatever the buffer holds. -/
def Compiler.compile (c : Compiler) (pattern buffer : List UInt8) : Except SyntaxError Regex := do
  let lexemes := Lexemes.ofPattern pattern
  let e ← lexemes.tokens.foldlM (Emission.feed c.maxNesting) { buffer := .ofRoom buffer }
  let length ← lexemes.ending
  let (f, e) ← e.finish length
  e.toRegex f length

end BoundedRegex
