import BoundedRegex.Proofs.Code.Generation
import BoundedRegex.Proofs.Compile.Compiler
import BoundedRegex.Proofs.Pattern.Escapes
import BoundedRegex.Proofs.Pattern.Phrase

/-!
# Text that stands for itself

With a backslash before each byte that has a meaning of its own, a text is read as its bytes, one
token for each (`Lexemes.ofText_escaped`).  They are a phrase that stands for a literal: the bytes in
a sequence (`Phrase.literal`), whose code is the bytes, of which the escape byte takes up two
(`length_literalCode`).
-/

namespace BoundedRegex

/-- A byte with a backslash before it, if it has a meaning of its own. -/
def escapedByte (b : UInt8) : List UInt8 :=
  if IsSpecial b then ['\\'.toUInt8, b] else [b]

/-- A text with a backslash before each byte that has a meaning of its own. -/
def escaped (w : List UInt8) : List UInt8 :=
  w.flatMap escapedByte

/-! ### Tokens -/

namespace TokenKind

variable {b : UInt8}

theorem scan_special (h : IsSpecial b) (rest : List UInt8) :
    scan '\\'.toUInt8 (b :: rest) = .ok (.byte b, 2) := by
  have hbackslash : Char.ofUInt8 '\\'.toUInt8 = '\\' := by decide
  simp only [scan, hbackslash, escape?_special h]

/-- Any other byte is a token by itself. -/
theorem scan_ordinary (h : ¬IsSpecial b) (rest : List UInt8) : scan b rest = .ok (.byte b, 1) := by
  rw [IsSpecial] at h
  unfold scan
  generalize Char.ofUInt8 b = c at h ⊢
  -- All cases but the last are those of the special bytes.
  split
  case h_17 => rfl
  all_goals exact absurd (by decide) h

end TokenKind

namespace Lexemes

/-- An escaped byte is one token, whatever comes behind it. -/
theorem ofText_escapedByte (pos : Nat) (b : UInt8) (rest : List UInt8) :
    ofText pos (escapedByte b ++ rest) =
      cons ⟨.byte b, pos⟩ (ofText (pos + (escapedByte b).length) rest) := by
  rw [escapedByte]
  split
  · next hb => exact ofText_cons (TokenKind.scan_special hb rest) rfl
  · next hb => exact ofText_cons (TokenKind.scan_ordinary hb rest) rfl

/-- **An escaped text is read as its bytes.** -/
theorem ofText_escaped (pos : Nat) (w : List UInt8) :
    (ofText pos (escaped w)).tokens.map (·.kind) = w.map .byte ∧
      (ofText pos (escaped w)).ending = .ok (pos + (escaped w).length) := by
  induction w generalizing pos with
  | nil =>
    rw [escaped, List.flatMap_nil, ofText_nil]
    exact ⟨rfl, rfl⟩
  | cons b w ih =>
    obtain ⟨hkinds, hending⟩ := ih (pos + (escapedByte b).length)
    rw [escaped, List.flatMap_cons, ofText_escapedByte, List.length_append, ← Nat.add_assoc]
    exact ⟨congrArg (TokenKind.byte b :: ·) hkinds, hending⟩

end Lexemes

/-! ### The expression -/

/-- The code of a text that stands for itself. -/
def literalCode (w : List UInt8) : List UInt8 :=
  w.flatMap fun b => (Instr.byte b).encode

/-- The escape byte takes up two bytes. -/
theorem length_literalCode (w : List UInt8) :
    (literalCode w).length = w.length + w.count escapeByte := by
  induction w with
  | nil => rfl
  | cons b w ih =>
    have hb : (Instr.byte b).encode.length = 1 + if b == escapeByte then 1 else 0 := by
      by_cases h : b = escapeByte <;> simp [Instr.encode, h]
    rw [literalCode, List.flatMap_cons, List.length_append, hb, List.length_cons, List.count_cons]
    rw [literalCode] at ih
    omega

namespace Expr

/-- An expression with the bytes of a text behind it. -/
def thenBytes (e : Expr) (w : List UInt8) : Expr :=
  w.foldl (fun e b => .seq e (.leaf (.byte b))) e

variable {e : Expr}

theorem code_thenBytes (e : Expr) (w : List UInt8) :
    (e.thenBytes w).code = e.code ++ literalCode w := by
  induction w generalizing e with
  | nil => exact (List.append_nil _).symm
  | cons b w ih =>
    show ((seq e (leaf (.byte b))).thenBytes w).code = e.code ++ ((Instr.byte b).encode ++ _)
    rw [ih, ← List.append_assoc]
    rfl

/-- Bytes need no frames. -/
theorem frames_thenBytes (w : List UInt8) (hpeak : e.peak = 0) (hresidual : e.residual = 0) :
    (e.thenBytes w).peak = 0 := by
  induction w generalizing e with
  | nil => exact hpeak
  | cons b w ih => exact ih (by simp [peak, hpeak, hresidual]) (by simp [residual, hresidual])

theorem repeatsConsume_thenBytes (w : List UInt8) (h : e.RepeatsConsume) :
    (e.thenBytes w).RepeatsConsume := by
  induction w generalizing e with
  | nil => exact h
  | cons b w ih => exact ih ⟨h, trivial⟩

end Expr

/-- A sequence with the bytes of a text behind it is a sequence. -/
theorem Phrase.thenBytes (w : List UInt8) {tokens : List TokenKind} {e : Expr}
    (h : Phrase .sequence 0 tokens e 0 0) :
    Phrase .sequence 0 (tokens ++ w.map .byte) (e.thenBytes w) 0 0 := by
  induction w generalizing tokens e with
  | nil =>
    rw [List.map_nil, List.append_nil]
    exact h
  | cons b w ih =>
    have hcons := ih (h.more (.single (.byte 0 b)))
    rwa [List.append_assoc] at hcons

/-- A text of at least one byte is a phrase. -/
theorem Phrase.literal (b : UInt8) (w : List UInt8) :
    Phrase .alternation 0 ((b :: w).map .byte) ((Expr.leaf (.byte b)).thenBytes w) 0 0 :=
  .last (Phrase.thenBytes w (.one (.single (.byte 0 b))))

end BoundedRegex
