import BoundedRegex.Code.Program
import BoundedRegex.Proofs.Code.SetInstr
import BoundedRegex.Proofs.Pattern.Expr

/-!
# Where the code of an expression lies

`Expr.LaidOut p e a b` says that the program `p` holds the code of `e` from address `a` up to
address `b`, by what is fetched at the addresses between: an alternation is a split, the first
alternative, a jump behind the whole, and the rest; a repetition is a loop, its body and, unless
the body is a leaf, an instruction that goes back to the loop.
-/

namespace BoundedRegex

/-- The instruction of a leaf. -/
def Leaf.instr : Leaf → Instr
  | byte b => .byte b
  | set s => s.toInstr
  | anyByte => .anyByte

theorem Leaf.accepts_instr (l : Leaf) (b : UInt8) : l.instr.accepts b = l.accepts b := by
  cases l with
  | byte c => rfl
  | set s => exact s.accepts_toInstr b
  | anyByte => rfl

theorem Leaf.isSingleByte_instr (l : Leaf) : l.instr.isSingleByte = true := by
  cases l with
  | byte | anyByte => rfl
  | set s => exact s.isSingleByte_toInstr

/-- The instruction of an anchor. -/
def Anchor.instr : Anchor → Instr
  | start => .inputStart
  | stop => .inputEnd

namespace Expr

/-- Whether the iterations of an expression keep their frames: they do if there is a bound and
something to keep. -/
def keepsFrames (e : Expr) (q : Quantifier) : Bool :=
  q.max ≠ unboundedCount && 0 < e.residual

/-- The operands of the loop around an expression. -/
def toLoop (e : Expr) (q : Quantifier) (bodyLength : UInt16) : Loop :=
  { min := q.min, max := q.max, greedy := q.greedy, singleByte := e.isLeaf
    keepsFrames := e.keepsFrames q, bodyLength }

/-- A program holds the code of an expression between two addresses. -/
def LaidOut (p : Program) : Expr → Nat → Nat → Prop
  | leaf l, a, b => ∃ n, p.fetch? a = some (l.instr, n) ∧ b = a + n
  | anchor x, a, b => ∃ n, p.fetch? a = some (x.instr, n) ∧ b = a + n
  | seq e f, a, b => ∃ m, e.LaidOut p a m ∧ f.LaidOut p m b
  | alt e f, a, b =>
    ∃ m o o', p.fetch? a = some (.split o, 4) ∧ offsetTarget a o = m + 4 ∧
      e.LaidOut p (a + 4) m ∧ p.fetch? m = some (.jump o', 4) ∧ offsetTarget m o' = b ∧
      f.LaidOut p (m + 4) b
  | capture index e, a, b =>
    ∃ m, p.fetch? a = some (.captureStart index, 3) ∧ e.LaidOut p (a + 3) m ∧
      p.fetch? m = some (.captureEnd index, 3) ∧ b = m + 3
  | repetition e q, a, b =>
    ∃ n, p.fetch? a = some (.loop (e.toLoop q n), 7) ∧ (e.toLoop q n).after a = b ∧
      if e.isLeaf then e.LaidOut p (Loop.body a) b
      else ∃ m o, e.LaidOut p (Loop.body a) m ∧ p.fetch? m = some (.loopEnd o, 4) ∧
        offsetTarget m o = a ∧ b = m + 4

theorem LaidOut.le {p : Program} {e : Expr} {a b : Nat} (h : e.LaidOut p a b) : a ≤ b := by
  induction e generalizing a b with
  | leaf | anchor =>
    obtain ⟨n, -, rfl⟩ := h
    exact Nat.le_add_right a n
  | seq e f ihe ihf =>
    obtain ⟨m, he, hf⟩ := h
    exact Nat.le_trans (ihe he) (ihf hf)
  | alt e f ihe ihf =>
    obtain ⟨m, -, -, -, -, he, -, -, hf⟩ := h
    have h₁ := ihe he
    have h₂ := ihf hf
    omega
  | capture index e ih =>
    obtain ⟨m, -, he, -, rfl⟩ := h
    have h₁ := ih he
    omega
  | repetition e q ih =>
    obtain ⟨n, -, rfl, -⟩ := h
    simp only [Loop.after, Loop.body]
    omega

end Expr

end BoundedRegex
