import BoundedRegex.Proofs.Compile.Grouped
import BoundedRegex.Proofs.Compile.LoopBound
import BoundedRegex.Proofs.Limited

/-!
# Brackets that do not capture leave no trace

What is compiled depends on the expression that the tokens of a pattern stand for, and on nothing
else (`Compiler.regex_eq_of_derives`): not on where the tokens stand in the text, and not on the
brackets around them.  So a pattern in brackets that do not capture compiles to what the pattern
itself compiles to, one level deeper (`Compiler.compile_grouped`).
-/

namespace BoundedRegex

/-- The tokens of a pattern in brackets. -/
theorem Lexemes.kinds_grouped {pattern : List UInt8} {length : Nat}
    (h : (ofPattern pattern).ending = .ok length) :
    kinds (grouped pattern) = .groupOpen :: kinds pattern ++ [.groupClose] ∧
      (ofPattern (grouped pattern)).ending = .ok (length + 2) := by
  obtain ⟨hlength, inner, hinner, hgrouped⟩ := ofPattern_grouped h []
  rw [List.append_nil, ofText_nil, List.append_nil] at hgrouped
  refine ⟨?_, by rw [hgrouped, hlength]⟩
  simp only [kinds, hgrouped, List.map_cons, List.map_append, hinner]
  rfl

namespace Compiler

variable {c c' : Compiler} {pattern pattern' buffer buffer' : List UInt8} {r r' : Regex}

/-- Patterns that stand for one expression compile to one thing. -/
theorem regex_eq_of_derives (h : c.compile pattern buffer = .ok r)
    (h' : c'.compile pattern' buffer' = .ok r') {e : Expr} {n : Nat}
    (hderives : Derives .alternation 0 (Lexemes.kinds pattern) e n)
    (hderives' : Derives .alternation 0 (Lexemes.kinds pattern') e n) : r = r' := by
  obtain ⟨hcode, hdepth, hcaptures⟩ := eq_of_derives h hderives
  obtain ⟨hcode', hdepth', hcaptures'⟩ := eq_of_derives h' hderives'
  have hcode : r.code = r'.code := hcode.trans hcode'.symm
  have hdepth : r.scratchDepth = r'.scratchDepth := UInt16.toNat_inj.1 (hdepth.trans hdepth'.symm)
  have hcaptures : r.captures = r'.captures := UInt8.toNat_inj.1 (hcaptures.trans hcaptures'.symm)
  have hmarks : r.loopBound = r'.loopBound := Nat.eq_of_testBit_eq fun i =>
    Bool.eq_iff_iff.2 <| by
      rw [testBit_loopBound_iff h hderives, testBit_loopBound_iff h' hderives']
  cases r
  cases r'
  subst hcode hdepth hcaptures hmarks
  rfl

/-- **Brackets that do not capture leave no trace.**  A pattern that compiles in some buffer, with
some limit on the nesting, compiles in brackets with one more level allowed, in any buffer that is
no shorter, and to the same: the header and the code are equal. -/
theorem compile_grouped (h : c.compile pattern buffer = .ok r)
    (hroom : buffer.length ≤ buffer'.length) :
    ({ maxNesting := c.maxNesting + 1 } : Compiler).compile (grouped pattern) buffer' = .ok r := by
  obtain ⟨⟨length, hending⟩, e, n, d, hphrase, hd, hn, he, hcode, hdepth⟩ := phrase_of_compile h
  obtain ⟨hkinds, hending'⟩ := Lexemes.kinds_grouped hending
  have hgrouped : Phrase .alternation 0 (Lexemes.kinds (grouped pattern)) e n (d + 1) :=
    hkinds ▸ .last (.one (.single (.group hphrase)))
  have hpeak : e.peak ≤ 65535 := hdepth ▸ Nat.le_of_lt_succ r.scratchDepth.toNat_lt
  have hfits := Nat.le_trans (room_of_compile h hphrase hn hcode) hroom
  obtain ⟨r', h'⟩ := exists_compile (c := { maxNesting := c.maxNesting + 1 }) hending' hgrouped
    (Nat.succ_le_succ hd) hn he (length_code_le hcode) hpeak hfits
  rw [h', regex_eq_of_derives h h' (hphrase.derives hn he) (hgrouped.derives hn he)]

/-- `(<a|b>{2})` compiles to the bytes of `<a|b>{2}`. -/
theorem compile_grouped_branching :
    ({} : Compiler).compile [0x3c, 0x61, 0x7c, 0x62, 0x3e, 0x7b, 0x32, 0x7d]
        (List.replicate 39 0) = .ok .branching ∧
      (List.replicate 39 (0 : UInt8)).length ≤ (List.replicate 39 (0xFF : UInt8)).length ∧
      ({ maxNesting := 17 } : Compiler).compile
        [0x28, 0x3c, 0x61, 0x7c, 0x62, 0x3e, 0x7b, 0x32, 0x7d, 0x29] (List.replicate 39 0xFF) =
          .ok .branching := by
  have hroom : (List.replicate 39 (0 : UInt8)).length ≤ (List.replicate 39 (0xFF : UInt8)).length :=
    Nat.le_of_eq (by rw [List.length_replicate, List.length_replicate])
  exact ⟨compile_branching, hroom, compile_grouped compile_branching hroom⟩

end Compiler

end BoundedRegex
