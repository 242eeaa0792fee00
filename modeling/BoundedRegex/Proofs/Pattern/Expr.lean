import BoundedRegex.Compile.Footprint
import BoundedRegex.Match.Frame

/-!
# Expressions and what they match

The compiler writes code token by token and never has a tree.  `Expr` is the tree that it does
without, and `Expr.results` is what an expression matches: from a point in the input, the points at
which it ends, in the order in which they are tried.

* A sequence tries, for each result of its first part in turn, those of its second part.
* An alternation tries the results of its first alternative, then those of the others.
* A repetition with a bound tries everything inside each iteration (`counted`).
* A repetition without a bound is atomic: an iteration takes the first result of the body and is
  not entered again, so that only the number of iterations is left to try (`iterates`).

`Expr.peak` and `Expr.residual` are the frames an expression needs, counted without a bound;
`Expr.footprint_eq` says that the compiler's counts, which stop at the largest 64-bit number, are
these.
-/

namespace BoundedRegex

/-- What consumes one byte. -/
inductive Leaf where
  | byte (b : UInt8)
  | set (s : ByteSet)
  | anyByte
deriving DecidableEq

/-- Whether a leaf accepts a byte. -/
def Leaf.accepts : Leaf → UInt8 → Bool
  | byte c, b => c = b
  | set s, b => s.contains b
  | anyByte, b => b ≠ 0x0a

/-- A place in the input that is required, and nothing consumed. -/
inductive Anchor where
  | start
  | stop
deriving DecidableEq

/-- Whether an anchor holds at an offset. -/
def Anchor.holds (input : Array UInt8) : Anchor → Nat → Bool
  | start, pos => pos = 0
  | stop, pos => pos = input.size

/-- An expression.  Brackets that do not capture leave no trace in it. -/
inductive Expr where
  | leaf (l : Leaf)
  | anchor (a : Anchor)
  | seq (a b : Expr)
  | alt (a b : Expr)
  | capture (index : UInt8) (e : Expr)
  | repetition (e : Expr) (q : Quantifier)
deriving DecidableEq

/-- An offset of the input, with the spans that have been captured on the way to it. -/
structure Point where
  pos : Nat
  log : List Capture
deriving DecidableEq

/-! ### Repetitions -/

section

variable (f : Point → List Point)

/-- The results of a repetition of which `k` iterations are over and at most `n` are left: those
with another iteration first if it is greedy, and last otherwise. -/
def counted (min : Nat) (greedy : Bool) : Nat → Nat → Point → List Point
  | 0, k, s => if min ≤ k then [s] else []
  | n + 1, k, s =>
    let more := (f s).flatMap (counted min greedy n (k + 1))
    let stop := if min ≤ k then [s] else []
    if greedy then more ++ stop else stop ++ more

/-- The points after 0, 1, 2 … iterations, each of which takes the first result of the body; at
most `n` iterations. -/
def iterates : Nat → Point → List Point
  | 0, s => [s]
  | n + 1, s =>
    s :: match (f s).head? with
      | some t => iterates n t
      | none => []

end

/-- Points given from the fewest iterations up, in the order in which they are tried. -/
def inOrder (greedy : Bool) (points : List Point) : List Point :=
  if greedy then points.reverse else points

namespace Expr

/-! ### Meaning -/

/-- The points at which an expression ends, in the order in which they are tried.  No repetition
of a body that consumes has more iterations than the input has bytes. -/
def results (input : Array UInt8) : Expr → Point → List Point
  | leaf l, s =>
    match input[s.pos]? with
    | some b => if l.accepts b then [⟨s.pos + 1, s.log⟩] else []
    | none => []
  | anchor a, s => if a.holds input s.pos then [s] else []
  | seq a b, s => (a.results input s).flatMap (b.results input)
  | alt a b, s => a.results input s ++ b.results input s
  | capture index e, s =>
    (e.results input s).map fun t => ⟨t.pos, t.log ++ [⟨index, s.pos, t.pos⟩]⟩
  | repetition e q, s =>
    if q.max = unboundedCount then
      inOrder q.greedy ((iterates (e.results input) input.size s).drop q.min.toNat)
    else counted (e.results input) q.min.toNat q.greedy q.max.toNat 0 s

/-! ### Shape -/

/-- Whether an expression can match the empty string, as far as its shape tells. -/
def nullable : Expr → Bool
  | leaf _ => false
  | anchor _ => true
  | seq a b => a.nullable && b.nullable
  | alt a b => a.nullable || b.nullable
  | capture _ e => e.nullable
  | repetition _ q => q.min = 0

/-- Whether an expression is a leaf. -/
def isLeaf : Expr → Bool
  | leaf _ => true
  | _ => false

/-- The captures inside an expression, in the order in which they open. -/
def indices : Expr → List UInt8
  | leaf _ | anchor _ => []
  | seq a b | alt a b => a.indices ++ b.indices
  | capture index e => index :: e.indices
  | repetition e _ => e.indices

/-- The captures inside a repetition that may iterate more than once. -/
def loopIndices : Expr → List UInt8
  | leaf _ | anchor _ => []
  | seq a b | alt a b => a.loopIndices ++ b.loopIndices
  | capture _ e => e.loopIndices
  | repetition e q => if 1 < q.max then e.indices else e.loopIndices

/-- What every expression keeps to that a pattern can stand for:
* no capture is inside another one of the same index;
* what is repeated consumes something;
* a repetition may iterate, and its bounds are in order. -/
def WellFormed : Expr → Prop
  | leaf _ | anchor _ => True
  | seq a b | alt a b => a.WellFormed ∧ b.WellFormed
  | capture index e => index ∉ e.indices ∧ e.WellFormed
  | repetition e q =>
    e.nullable = false ∧ 0 < q.max.toNat ∧
      (q.max = unboundedCount ∨ q.min.toNat ≤ q.max.toNat) ∧ e.WellFormed

/-! ### Frames -/

/-- The most frames of an expression that are alive after the matcher has left it. -/
def residual : Expr → Nat
  | leaf _ | anchor _ => 0
  | seq a b => a.residual + b.residual
  | alt a b => Nat.max (a.residual + 1) b.residual
  | capture _ e => if 0 < e.residual then e.residual + 1 else 0
  | repetition e q =>
    if q.max ≠ unboundedCount ∧ 0 < e.residual then (e.residual + 1) * q.max.toNat else 1

/-- The most frames of an expression that are alive while the matcher is inside it. -/
def peak : Expr → Nat
  | leaf _ | anchor _ => 0
  | seq a b => Nat.max a.peak (a.residual + b.peak)
  | alt a b => Nat.max (a.peak + 1) b.peak
  | capture _ e => e.peak + 1
  | repetition e q =>
    if q.max ≠ unboundedCount ∧ 0 < e.residual then
      (e.residual + 1) * (q.max.toNat - 1) + (e.peak + 1)
    else e.peak + 1

/-! ### The compiler's counts -/

/-- The footprint that the compiler computes. -/
def footprint : Expr → Footprint
  | leaf _ => .byte
  | anchor _ => .anchor
  | seq a b => a.footprint.andThen b.footprint
  | alt a b => a.footprint.withSplit.or b.footprint
  | capture _ e => e.footprint.captured
  | repetition e q => e.footprint.repeated q

/-- A count that stops at the largest one. -/
def sat (n : Nat) : Nat :=
  Nat.min n maxCount

theorem satAdd_sat (a b : Nat) : satAdd (sat a) (sat b) = sat (a + b) := by
  show min (min a maxCount + min b maxCount) maxCount = min (a + b) maxCount
  omega

theorem satAdd_sat_one (a : Nat) : satAdd (sat a) 1 = sat (a + 1) :=
  satAdd_sat a 1

theorem satMul_sat (a n : Nat) : satMul (sat a) n = sat (a * n) := by
  rcases Nat.eq_zero_or_pos n with rfl | hn
  · simp [satMul, sat]
  · by_cases ha : a ≤ maxCount
    · simp only [satMul, sat, Nat.min_def, if_pos ha]
    · have hle : maxCount ≤ a * n :=
        Nat.le_trans (Nat.le_of_not_le ha) (Nat.le_mul_of_pos_right a hn)
      have hle' : maxCount ≤ maxCount * n := Nat.le_mul_of_pos_right _ hn
      have hmin : Nat.min a maxCount = maxCount := Nat.min_eq_right (Nat.le_of_not_le ha)
      simp only [satMul, sat, hmin]
      rw [show Nat.min (maxCount * n) maxCount = maxCount from Nat.min_eq_right hle',
        show Nat.min (a * n) maxCount = maxCount from Nat.min_eq_right hle]

theorem max_sat (a b : Nat) : Nat.max (sat a) (sat b) = sat (Nat.max a b) := by
  show max (min a maxCount) (min b maxCount) = min (max a b) maxCount
  omega

theorem sat_pos (a : Nat) : 0 < sat a ↔ 0 < a := by
  show 0 < min a maxCount ↔ 0 < a
  simp only [maxCount]
  omega

theorem residual_of_isLeaf {e : Expr} (h : e.isLeaf = true) : e.residual = 0 := by
  cases e with
  | leaf => rfl
  | _ => cases h

/-- **The compiler's counts are exact up to the largest one.** -/
theorem footprint_eq (e : Expr) :
    e.footprint =
      { nullable := e.nullable, singleByte := e.isLeaf, peak := sat e.peak,
        residual := sat e.residual } := by
  induction e with
  | leaf | anchor => rfl
  | seq a b iha ihb =>
    simp only [footprint, iha, ihb, Footprint.andThen, satAdd_sat, max_sat]
    rfl
  | alt a b iha ihb =>
    simp only [footprint, iha, ihb, Footprint.withSplit, Footprint.or, satAdd_sat_one, max_sat]
    rfl
  | capture index e ih =>
    simp only [footprint, ih, Footprint.captured, satAdd_sat_one, sat_pos]
    have hsat : (if 0 < e.residual then sat (e.residual + 1) else 0) =
        sat (capture index e).residual := by
      simp only [residual]
      split <;> rfl
    rw [hsat]
    rfl
  | repetition e q ih =>
    have hneeds : (e.footprint.needsFrames q.max = true) ↔
        q.max ≠ unboundedCount ∧ 0 < e.residual := by
      simp only [ih, Footprint.needsFrames, Bool.and_eq_true, decide_eq_true_eq, Bool.not_eq_true',
        sat_pos]
      refine ⟨fun h => ⟨h.1.1, h.2⟩, fun h => ⟨⟨h.1, ?_⟩, h.2⟩⟩
      cases hl : e.isLeaf with
      | false => rfl
      | true => have := residual_of_isLeaf hl; omega
    simp only [footprint, Footprint.repeated]
    by_cases hk : q.max ≠ unboundedCount ∧ 0 < e.residual
    · rw [if_pos (hneeds.2 hk), ih]
      simp only [Footprint.keptLoop, satAdd_sat_one, satMul_sat, satAdd_sat, peak, residual,
        if_pos hk]
      rfl
    · rw [if_neg (fun h => hk (hneeds.1 h)), ih]
      simp only [Footprint.committedLoop, satAdd_sat_one, peak, residual, if_neg hk]
      rfl

/-- A peak that the compiler accepts is exact. -/
theorem peak_eq_of_lt {e : Expr} (h : e.footprint.peak < 65536) : e.footprint.peak = e.peak := by
  rw [footprint_eq] at h ⊢
  change min e.peak maxCount < 65536 at h
  show min e.peak maxCount = e.peak
  simp only [maxCount] at h ⊢
  omega

end Expr

end BoundedRegex
