import BoundedRegex.Pattern.Token

/-!
# What an expression costs

The frames that matching an expression can need follow from its shape alone.  `peak` bounds the
frames it has pushed while the matcher is inside it, `residual` those that are left when the
matcher leaves it.  Sums and products stop at the largest 64-bit number.
-/

namespace BoundedRegex

/-- The largest count. -/
def maxCount : Nat := 0xffffffffffffffff

/-- A sum that stops at the largest count. -/
def satAdd (a b : Nat) : Nat :=
  Nat.min (a + b) maxCount

/-- A product that stops at the largest count. -/
def satMul (a b : Nat) : Nat :=
  Nat.min (a * b) maxCount

/-- What is known of an expression once its code has been written. -/
structure Footprint where
  /-- The expression can match the empty string. -/
  nullable : Bool
  /-- Its code is one instruction, which consumes one byte. -/
  singleByte : Bool
  peak : Nat
  residual : Nat
deriving DecidableEq

namespace Footprint

/-- An expression that consumes one byte. -/
def byte : Footprint := ⟨false, true, 0, 0⟩

/-- An anchor. -/
def anchor : Footprint := ⟨true, false, 0, 0⟩

/-- One expression after another.  What the first leaves behind is there while the matcher is
inside the second. -/
def andThen (a b : Footprint) : Footprint :=
  { nullable := a.nullable && b.nullable
    singleByte := false
    peak := Nat.max a.peak (satAdd a.residual b.peak)
    residual := satAdd a.residual b.residual }

/-- Either of two alternatives. -/
def or (a b : Footprint) : Footprint :=
  { nullable := a.nullable || b.nullable
    singleByte := false
    peak := Nat.max a.peak b.peak
    residual := Nat.max a.residual b.residual }

/-- An alternative that others follow: the frame of its split is there inside it and after it. -/
def withSplit (a : Footprint) : Footprint :=
  { a with singleByte := false, peak := satAdd a.peak 1, residual := satAdd a.residual 1 }

/-- A capture around an expression.  The frame with its start is there inside it, and after it
only if some frame above it is. -/
def captured (a : Footprint) : Footprint :=
  { nullable := a.nullable
    singleByte := false
    peak := satAdd a.peak 1
    residual := if 0 < a.residual then satAdd a.residual 1 else 0 }

/-- A loop that gives up the frames of an iteration when it is complete, and has one of its own. -/
def committedLoop (a : Footprint) (min : UInt8) : Footprint :=
  { nullable := min = 0, singleByte := false, peak := satAdd a.peak 1, residual := 1 }

/-- A loop that keeps the frames of its iterations, and pushes one more for each. -/
def keptLoop (a : Footprint) (min max : UInt8) : Footprint :=
  { nullable := min = 0
    singleByte := false
    peak := satAdd (satMul (satAdd a.residual 1) (max.toNat - 1)) (satAdd a.peak 1)
    residual := satMul (satAdd a.residual 1) max.toNat }

/-- Whether a loop around an expression has to keep the frames of its iterations.  Where the
expression leaves none, there is nothing to keep; a loop without bound keeps none, so that the
frames stay bounded. -/
def needsFrames (a : Footprint) (max : UInt8) : Bool :=
  max ≠ unboundedCount && !a.singleByte && 0 < a.residual

/-- A repetition of an expression. -/
def repeated (a : Footprint) (q : Quantifier) : Footprint :=
  if a.needsFrames q.max then a.keptLoop q.min q.max else a.committedLoop q.min

end Footprint

end BoundedRegex
