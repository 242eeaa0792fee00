import BoundedRegex.Proofs.Code.Loadable
import BoundedRegex.Proofs.Compiled
import BoundedRegex.Proofs.Regex.Bytes
import BoundedRegex.Proofs.Snippet.Declaration

/-!
# Storing compiled patterns

What is promised of a compiled pattern that is kept: as bytes, loading accepts all that the compiler
makes, and gives it back as it was; in source code, its bytes are read back, unless the comment on
the pattern has a declaration of its own.
-/

namespace BoundedRegex

/-- What a pattern stands for has its captures numbered from zero on, and lower bounds that are
counts. -/
theorem Derives.fits {pattern : List UInt8} {e : Expr} {n : Nat}
    (h : Derives .alternation 0 (Lexemes.kinds pattern) e n) : e.Fits n := by
  refine ⟨?_, ?_⟩
  · intro i hi
    exact ((h.wellFormed Lexemes.inOrder_kinds).2.1 i hi).2
  · intro q hq
    exact (Lexemes.writable_kinds (h.mem_of_quantifiers hq)).min_ne

/-- The code of a pattern that compiles is admissible. -/
theorem Compiler.admissible_of_compile {c : Compiler} {pattern buffer : List UInt8} {r : Regex}
    (h : c.compile pattern buffer = .ok r) :
    (Program.ofCode r.code).Admissible r.captures.toNat := by
  obtain ⟨e, n, hderives, hwf, hcode, -, hcaptures⟩ := c.compile_derives h
  exact Expr.admissible_code hwf (hderives.captures_eq hcaptures ▸ hderives.fits) hcode r.code_le

/-- **Whatever the compiler makes, loading accepts**, and gives it back as it was.  So the lengths in
the header agree with the bytes, and wherever an instruction starts in the code there is one that
may be run, of which the last one, and it alone, accepts. -/
theorem Compiler.compile_loads {c : Compiler} {pattern buffer : List UInt8} {r : Regex}
    (h : c.compile pattern buffer = .ok r) :
    Regex.ofBytes r.toBytes = .ok r ∧
      r.toBytes.length = headerLength r.captures.toNat + r.code.length ∧
      (Program.ofCode r.code).Admissible r.captures.toNat := by
  have hadmissible := Compiler.admissible_of_compile h
  exact ⟨Regex.ofBytes_eq_ok_iff.2 ⟨rfl, hadmissible⟩, r.readsAs_toBytes.length, hadmissible⟩

theorem Compiler.compile_loads_branching :
    ({} : Compiler).compile [0x3c, 0x61, 0x7c, 0x62, 0x3e, 0x7b, 0x32, 0x7d]
        (List.replicate 39 0) = .ok .branching ∧
      Regex.ofBytes Regex.branching.toBytes = .ok .branching ∧
      (Program.ofCode Regex.branching.code).Admissible 1 := by
  obtain ⟨hloads, -, hadmissible⟩ := Compiler.compile_loads Compiler.compile_branching
  exact ⟨Compiler.compile_branching, hloads, hadmissible⟩

/-! ### In source code -/

/-- A compiled pattern that there can be: the compiler has made it, or it has been loaded. -/
inductive Regex.Obtained : Regex → Prop where
  | compiled {c : Compiler} {pattern buffer : List UInt8} {r : Regex}
      (h : c.compile pattern buffer = .ok r) : Obtained r
  | loaded {bytes : List UInt8} {r : Regex} (h : Regex.ofBytes bytes = .ok r) : Obtained r

/-- The bytes of a compiled pattern are loaded as it. -/
theorem Regex.Obtained.ofBytes_toBytes {r : Regex} (h : r.Obtained) :
    Regex.ofBytes r.toBytes = .ok r := by
  cases h with
  | compiled h => exact Regex.ofBytes_eq_ok_iff.2 ⟨rfl, Compiler.admissible_of_compile h⟩
  | loaded h => exact Regex.ofBytes_eq_ok_iff.2 ⟨rfl, (Regex.ofBytes_eq_ok_iff.1 h).2⟩

theorem Regex.length_toBytes_le (r : Regex) : r.toBytes.length ≤ Text.maxSize := by
  have hcaptures := r.captures.toNat_lt
  have hcode := r.code_le
  rw [r.readsAs_toBytes.length, headerLength]
  simp only [fixedHeaderLength, captureBytes, maxCodeLength, Text.maxSize] at *
  omega

/-- What is read is what is declared, if it is the bytes of a compiled pattern. -/
theorem Snippet.read_eq_ok_iff {r : Regex} (hr : r.Obtained) {text name : String} :
    read text name = .ok r.toBytes ↔ declared? text name = some r.toBytes := by
  rw [read]
  cases hdeclared : declared? text name with
  | none => simp
  | some bytes =>
    refine ⟨fun h => ?_, fun h => ?_⟩
    · cases hload : Regex.ofBytes bytes with
      | error e => simp [hload, Except.map] at h
      | ok r' => simpa [hload, Except.map] using h
    · obtain rfl := Option.some.inj h
      show (Regex.ofBytes r.toBytes).map _ = _
      rw [hr.ofBytes_toBytes]
      rfl

/-- **A compiled pattern in source code is read back**, just if no declaration of the name is found
in the comment on the pattern, or one of the same bytes.  The first declaration is read, be it in a
comment or not, and in whatever way the pattern is quoted there. -/
theorem Snippet.read_render {r : Regex} (hr : r.Obtained) {name : String}
    (hname : isIdentifier name = true) (q : Text.Quoting) (pattern : Option (List UInt8)) :
    ∃ text, renderWith q r name pattern = .ok text ∧
      (read text name = .ok r.toBytes ↔
        ∀ p ∈ pattern, declaration? (opening name) (q.quote p).toList ≠ none →
          declared? (q.quote p) name = some r.toBytes) := by
  obtain ⟨text, htext, -⟩ := exists_renderWith q r hname pattern
  refine ⟨text, htext, (read_eq_ok_iff hr).trans ?_⟩
  cases pattern with
  | none => simp [declared?_renderWith_none hname r.length_toBytes_le htext]
  | some p =>
    rw [declared?_renderWith_some hname r.length_toBytes_le htext]
    split
    · next hnone => simp [hnone]
    · next hsome => simp [hsome]

theorem Snippet.read_render_branching :
    Regex.branching.Obtained ∧ isIdentifier "static" = true ∧
      ∃ text, render .branching "static" (some [0x3c, 0x61, 0x7c, 0x62, 0x3e]) = .ok text ∧
        read text "static" = .ok Regex.branching.toBytes := by
  have hr : Regex.branching.Obtained := .compiled Compiler.compile_branching
  have hname : isIdentifier "static" = true := by decide
  obtain ⟨text, htext, hread⟩ :=
    read_render hr hname Text.quoting (some [0x3c, 0x61, 0x7c, 0x62, 0x3e])
  refine ⟨hr, hname, text, htext, hread.2 ?_⟩
  rintro p ⟨⟩ hfound
  exact absurd (by decide +kernel) hfound

/-- The pattern `static A:`, which looks like a declaration. -/
def Snippet.declaring : List UInt8 :=
  [0x73, 0x74, 0x61, 0x74, 0x69, 0x63, 0x20, 0x41, 0x3a]

/-- A compiled pattern that is not read back, with itself in the comment. -/
theorem Snippet.read_render_declaring :
    isIdentifier "A" = true ∧
      ∃ r : Regex, ({} : Compiler).compile declaring (List.replicate 20 0) = .ok r ∧
        ∃ text, render r "A" (some declaring) = .ok text ∧
          read text "A" = .error .invalidSnippet := by
  let r : Regex :=
    { code := declaring ++ [0xAA, 0x00]
      scratchDepth := 0
      captures := 0
      loopBound := 0
      code_le := by decide
      loopBound_lt := by decide }
  have hcompile : ({} : Compiler).compile declaring (List.replicate 20 0) = .ok r :=
    Compiler.compile_eq_ok (by decide +kernel)
  obtain ⟨text, htext, hnone⟩ : ∃ text,
      renderWith Text.quoting r "A" (some declaring) = .ok text ∧ declared? text "A" = none :=
    ⟨_, if_pos (by decide), by decide +kernel⟩
  exact ⟨by decide, r, hcompile, text, htext, by rw [read, hnone]⟩

end BoundedRegex
