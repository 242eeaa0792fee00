import BoundedRegex.Proofs.Code.Regions
import BoundedRegex.Proofs.FixedCaptures

/-!
# The marks of captures agree with the code

The compiler marks captures by ranges of numbers while it moves the code to make room for loops.
What it ends with agrees: the code opens each capture once, in their order, and closes it once; what
captures and loops take up is nested; and the captures that are marked are those that open inside
loops which may iterate more than once (`Compiler.capture_regions`).
-/

namespace BoundedRegex

namespace Compiler

variable {c : Compiler} {pattern buffer : List UInt8} {r : Regex} {e : Expr} {n : Nat}

/-- The code of a pattern that compiles is bracketed. -/
theorem bracketed_of_compile (h : c.compile pattern buffer = .ok r)
    (hderives : Derives .alternation 0 (Lexemes.kinds pattern) e n)
    (hcode : r.code = e.code ++ Instr.accept.encode) : (Program.ofCode r.code).Bracketed :=
  Expr.bracketed_code (p := .ofCode r.code) hcode r.code_le
    (hderives.wellFormed Lexemes.inOrder_kinds).2.2 ((admissible_of_compile h).sound r.code_le)
    (structured_of_compile h hderives hcode)

/-- **The marks of captures agree with the code.**  Read from its start, the code of a pattern that
compiles opens the captures 0, 1, 2 … in this order, each of them once and no others, and closes
each of them once and no others.  A capture is closed behind where it is opened.  Of any two regions,
those of captures and those of loops, one is inside the other or they have nothing in common.  And a
capture is marked if and only if it opens inside the body of a loop whose upper bound is greater than
1. -/
theorem capture_regions (h : c.compile pattern buffer = .ok r) :
    (∃ located, locate 0 r.code = .ok located ∧
      (Located.openings located).map UInt8.toNat = List.range r.captures.toNat ∧
      ((Located.closings located).map UInt8.toNat).Perm (List.range r.captures.toNat)) ∧
    (∀ index a b, (Program.ofCode r.code).Opens index a → (Program.ofCode r.code).Closes index b →
      a < b) ∧
    (∀ lo stop lo' stop', (Program.ofCode r.code).Region lo stop →
      (Program.ofCode r.code).Region lo' stop' →
        stop ≤ lo' ∨ stop' ≤ lo ∨ (lo < lo' ∧ stop' < stop) ∨ (lo' < lo ∧ stop < stop') ∨
          (lo = lo' ∧ stop = stop')) ∧
    ∀ i, r.captureInLoop i = true ↔
      ∃ (index : UInt8) (a lo : Nat) (l : Loop), index.toNat = i ∧
        (Program.ofCode r.code).Opens index a ∧ (Program.ofCode r.code).Inside lo l a ∧
          1 < l.max := by
  obtain ⟨e, n, hderives, -, hcode, -, hcaptures⟩ := c.compile_derives h
  have hadmissible := admissible_of_compile h
  have hstructured := structured_of_compile h hderives hcode
  have hbracketed := bracketed_of_compile h hderives hcode
  have hindices : e.indices.map UInt8.toNat = List.range r.captures.toNat := by
    rw [hderives.map_toNat_indices, hderives.captures_eq hcaptures, List.range_eq_range',
      Nat.sub_zero]
  refine ⟨?_, ?_, ?_, ?_⟩
  · obtain ⟨located, hchain, hopenings, hclosings⟩ :=
      Expr.exists_located (p := .ofCode r.code) hcode r.code_le
    refine ⟨located, locate_of_chain hchain, hopenings ▸ hindices, ?_⟩
    exact (hclosings.map UInt8.toNat).trans (.of_eq hindices)
  · intro index a b hopens hcloses
    obtain ⟨size, hf⟩ := hopens.fetch
    exact hbracketed.lt (.capture hopens.starts hf hcloses)
  · intro lo stop lo' stop' hregion hregion'
    exact hregion.nested hadmissible hbracketed hstructured hregion'
  · intro i
    rw [captureInLoop_iff h hderives, List.mem_map]
    constructor
    · rintro ⟨index, hindex, hi⟩
      obtain ⟨a, lo, l, hinside⟩ :=
        (Expr.mem_loopIndices_iff (p := .ofCode r.code) hcode r.code_le hadmissible hbracketed).1
          hindex
      exact ⟨index, a, lo, l, hi, hinside⟩
    · rintro ⟨index, a, lo, l, hi, hinside⟩
      exact ⟨index, (Expr.mem_loopIndices_iff hcode r.code_le hadmissible hbracketed).2
        ⟨a, lo, l, hinside⟩, hi⟩

/-- In the code of `<a|b>{2}` the one capture opens inside the loop, and is marked. -/
theorem capture_regions_branching :
    ({} : Compiler).compile [0x3c, 0x61, 0x7c, 0x62, 0x3e, 0x7b, 0x32, 0x7d]
        (List.replicate 39 0) = .ok .branching ∧
      Regex.branching.captureInLoop 0 = true ∧
      (∃ (index : UInt8) (a lo : Nat) (l : Loop), index.toNat = 0 ∧
        (Program.ofCode Regex.branching.code).Opens index a ∧
          (Program.ofCode Regex.branching.code).Inside lo l a ∧ 1 < l.max) ∧
      ∀ a b, (Program.ofCode Regex.branching.code).Opens 0 a →
        (Program.ofCode Regex.branching.code).Closes 0 b → a < b := by
  have hmarked : Regex.branching.captureInLoop 0 = true := by decide +kernel
  obtain ⟨-, hlt, -, hiff⟩ := capture_regions compile_branching
  exact ⟨compile_branching, hmarked, (hiff 0).1 hmarked, hlt 0⟩

end Compiler

end BoundedRegex
