import BoundedRegex.Proofs.Compiled
import BoundedRegex.Proofs.Pattern.Numbering

/-!
# Generated code

The compiler writes code in one pass over the tokens: it inserts instructions in front of code that
it has written before, and fills in the offsets of jumps once it knows them.  What it ends with is
the code of the expression as a whole (`Compiler.compile_generates`), and none of the 16-bit fields
in it has lost anything: each one, read as a number, is the distance or the length that it stands
for (`Expr.FieldsExact`).
-/

namespace BoundedRegex

namespace Expr

/-- Every 16-bit field in the code of an expression is the number that it stands for:
* a split holds the distance to the alternative behind its own;
* a jump holds the distance to the end of the alternatives behind it;
* a loop holds the length of its body, with the instruction that ends an iteration, if any;
* that instruction holds the distance back to the loop. -/
def FieldsExact : Expr → Prop
  | leaf _ | anchor _ => True
  | seq e f => e.FieldsExact ∧ f.FieldsExact
  | alt e f =>
    (Int16.ofNat (e.code.length + 8)).toInt = e.code.length + 8 ∧
      (Int16.ofNat (f.code.length + 4)).toInt = f.code.length + 4 ∧ e.FieldsExact ∧ f.FieldsExact
  | capture _ e => e.FieldsExact
  | repetition e _ =>
    (UInt16.ofNat (if e.isLeaf then e.code.length else e.code.length + 4)).toNat =
        (if e.isLeaf then e.code.length else e.code.length + 4) ∧
      (e.isLeaf = false → (-Int16.ofNat (e.code.length + 7)).toInt = -(e.code.length + 7)) ∧
      e.FieldsExact

/-- In a code that an offset spans from end to end, no field is cut short. -/
theorem fieldsExact_of_length_le (e : Expr) (h : e.code.length ≤ maxCodeLength) :
    e.FieldsExact := by
  induction e with
  | leaf | anchor => trivial
  | seq e f ihe ihf =>
    rw [code, List.length_append] at h
    exact ⟨ihe (by omega), ihf (by omega)⟩
  | alt e f ihe ihf =>
    rw [code, List.length_append, length_alternativeCode] at h
    exact ⟨toInt_ofNat (by omega), toInt_ofNat (by omega), ihe (by omega), ihf (by omega)⟩
  | capture index e ih =>
    rw [code, List.length_append, List.length_append] at h
    exact ih (by omega)
  | repetition e q ih =>
    rw [length_code_repetition] at h
    refine ⟨UInt16.toNat_ofNat_of_lt' ?_, fun hleaf => ?_, ih ?_⟩
    · simp only [UInt16.size, maxCodeLength] at h ⊢
      omega
    · rw [hleaf, if_neg Bool.false_ne_true] at h
      exact toInt_neg_ofNat (by omega)
    · split at h <;> omega

end Expr

/-- **The code that is written in one pass is the code of the expression.**  A pattern that compiles
stands for just one expression.  Its code is that of the expression and an instruction that accepts,
with every distance and length in it exact; and the captures bear the ranks of their brackets among
those of the pattern that capture. -/
theorem Compiler.compile_generates {c : Compiler} {pattern buffer : List UInt8} {r : Regex}
    (h : c.compile pattern buffer = .ok r) :
    ∃ e n, Derives .alternation 0 (Lexemes.kinds pattern) e n ∧
      (∀ e' n', Derives .alternation 0 (Lexemes.kinds pattern) e' n' → e' = e) ∧
      r.code = e.code ++ Instr.accept.encode ∧ e.FieldsExact ∧
      n = (Lexemes.kinds pattern).count .captureOpen ∧
      e.indices.map UInt8.toNat = List.range n := by
  obtain ⟨e, n, hderives, -, hcode, -, -⟩ := c.compile_derives h
  have hlen : e.code.length ≤ maxCodeLength := by
    have hle := r.code_le
    rw [hcode, List.length_append] at hle
    exact Nat.le_trans (Nat.le_add_right ..) hle
  refine ⟨e, n, hderives, fun e' n' h' => (h'.unique hderives).1, hcode,
    e.fieldsExact_of_length_le hlen, ?_, ?_⟩
  · rw [hderives.eq_add_count, Nat.zero_add]
  · rw [hderives.map_toNat_indices, List.range_eq_range', Nat.sub_zero]

theorem Lexemes.kinds_branching :
    kinds [0x3c, 0x61, 0x7c, 0x62, 0x3e, 0x7b, 0x32, 0x7d] =
      [.captureOpen, .byte 0x61, .alternation, .byte 0x62, .captureClose,
        .quantifier ⟨2, 2, true⟩] := by
  decide +kernel

/-- The expression of the pattern `<a|b>{2}`. -/
def Expr.branching : Expr :=
  .repetition (.capture 0 (.alt (.leaf (.byte 0x61)) (.leaf (.byte 0x62)))) ⟨2, 2, true⟩

theorem Expr.derives_branching :
    Derives .alternation 0 (Lexemes.kinds [0x3c, 0x61, 0x7c, 0x62, 0x3e, 0x7b, 0x32, 0x7d])
      .branching 1 := by
  have halternatives : Derives .alternation 1 [.byte 0x61, .alternation, .byte 0x62]
      (.alt (.leaf (.byte 0x61)) (.leaf (.byte 0x62))) 1 :=
    .either (.one (.single (.byte 1 0x61))) (.last (.one (.single (.byte 1 0x62))))
  rw [Lexemes.kinds_branching]
  exact .last (.one (.quantified _ (.capture (by decide) halternatives) rfl))

theorem Compiler.compile_generates_branching :
    ({} : Compiler).compile [0x3c, 0x61, 0x7c, 0x62, 0x3e, 0x7b, 0x32, 0x7d]
        (List.replicate 39 0) = .ok .branching ∧
      Regex.branching.code = Expr.branching.code ++ Instr.accept.encode ∧
      Expr.branching.FieldsExact ∧ Expr.branching.indices.map UInt8.toNat = [0] := by
  obtain ⟨e, n, hderives, hunique, hcode, hfields, hcount, hindices⟩ :=
    Compiler.compile_generates Compiler.compile_branching
  obtain rfl := hunique _ _ Expr.derives_branching
  rw [hcount, Lexemes.kinds_branching] at hindices
  exact ⟨Compiler.compile_branching, hcode, hfields, hindices⟩

end BoundedRegex
