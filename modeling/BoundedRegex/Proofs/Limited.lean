import BoundedRegex.Proofs.Accepted
import BoundedRegex.Proofs.Compile.Limits
import BoundedRegex.Proofs.Regex.Bytes

/-!
# Limits stop a compilation and do no more

A lower limit on the nesting, or a shorter buffer, changes the result of a compilation only into the
error of that limit.  A pattern that compiles takes just the room that the compiled pattern takes:
it compiles to the same in any buffer that is no shorter, and in no shorter one
(`Compiler.compile_limits`).
-/

namespace BoundedRegex

/-- What is finished fits into the buffer, with its header. -/
theorem Emission.length_toBytes_le {E : Emission} {f : Footprint} {length : Nat} {r : Regex}
    (h : E.toRegex f length = .ok r) : r.toBytes.length ≤ E.buffer.size := by
  rw [r.readsAs_toBytes.length]
  unfold toRegex at h
  split at h
  · cases h
  · split at h
    · cases h
    · next hroom =>
      cases h
      have hheader : headerLength (UInt8.ofNat E.captures).toNat ≤ headerLength E.captures :=
        Nat.add_le_add_left
          (Nat.div_le_div_right (Nat.add_le_add_right (Nat.mod_le E.captures 256) 7)) _
      exact Nat.le_trans (Nat.add_le_add_right hheader _) (Nat.le_of_not_lt hroom)

namespace Compiler

variable {c : Compiler} {pattern buffer other : List UInt8} {r : Regex}

/-- What is compiled fits into the buffer. -/
theorem length_toBytes_le (h : c.compile pattern buffer = .ok r) :
    r.toBytes.length ≤ buffer.length := by
  obtain ⟨E, hfold, h⟩ := bind_eq_ok h
  obtain ⟨length, -, h⟩ := bind_eq_ok h
  obtain ⟨⟨f, E'⟩, hfinish, h⟩ := bind_eq_ok h
  -- A compilation is its own twin, and so keeps to the size of its buffer.
  have hfed := (Emission.Twins.start buffer buffer).feedAll (Nat.le_refl _)
    (Nat.le_refl c.maxNesting) (Lexemes.ofPattern pattern).tokens
  rw [hfold] at hfed
  have hfinished : Limited (SyntaxError.OfLimit c.maxNesting c.maxNesting _ _) _ (E.finish length)
      (E.finish length) := hfed.of_ok.finish (Nat.le_refl _) length
  rw [hfinish] at hfinished
  obtain ⟨-, htwins⟩ := hfinished.of_ok
  rw [← htwins.buffer.size_eq]
  exact Emission.length_toBytes_le h

/-- A pattern does not compile to one thing in one buffer and to another in another. -/
theorem compile_unique {r' : Regex} (h : c.compile pattern buffer = .ok r)
    (h' : c.compile pattern other = .ok r') : r = r' := by
  rcases Nat.le_total buffer.length other.length with hle | hle
  · have hsame := c.limited_compile (Nat.le_refl _) pattern hle
    rw [h, h'] at hsame
    exact hsame.of_ok
  · have hsame := c.limited_compile (Nat.le_refl _) pattern hle
    rw [h, h'] at hsame
    exact hsame.of_ok.symm

/-- A compiled pattern takes a header for its captures, its code, and the instruction that accepts.
-/
theorem length_toBytes_eq (h : c.compile pattern buffer = .ok r) {e : Expr} {n d : Nat}
    (hphrase : Phrase .alternation 0 (Lexemes.kinds pattern) e n d) (hn : n ≤ 255)
    (hcode : r.code = e.code ++ Instr.accept.encode) :
    r.toBytes.length = headerLength n + (e.code.length + 2) := by
  obtain ⟨e', n', hderives, -, -, -, hcaptures⟩ := c.compile_derives h
  have hcount : n' = n := by rw [hderives.eq_add_count, hphrase.eq_add_count]
  have hindex : (UInt8.ofNat n).toNat = n :=
    UInt8.toNat_ofNat_of_lt' (Nat.lt_of_le_of_lt hn (by decide))
  rw [r.readsAs_toBytes.length, hcaptures, hcount, hindex, hcode, List.length_append]
  rfl

/-- The buffer had room for the header and the code. -/
theorem room_of_compile (h : c.compile pattern buffer = .ok r) {e : Expr} {n d : Nat}
    (hphrase : Phrase .alternation 0 (Lexemes.kinds pattern) e n d) (hn : n ≤ 255)
    (hcode : r.code = e.code ++ Instr.accept.encode) :
    headerLength n + (e.code.length + 2) ≤ buffer.length := by
  rw [← length_toBytes_eq h hphrase hn hcode]
  exact length_toBytes_le h

/-- What compiles in one buffer compiles to the same in any that it fits into. -/
theorem compile_of_fits (h : c.compile pattern buffer = .ok r)
    (hfits : r.toBytes.length ≤ other.length) : c.compile pattern other = .ok r := by
  obtain ⟨⟨length, hending⟩, e, n, d, hphrase, hd, hn, he, hcode, hdepth⟩ := phrase_of_compile h
  have hpeak : e.peak ≤ 65535 := hdepth ▸ Nat.le_of_lt_succ r.scratchDepth.toNat_lt
  rw [length_toBytes_eq h hphrase hn hcode] at hfits
  obtain ⟨r', h'⟩ := exists_compile hending hphrase hd hn he (length_code_le hcode) hpeak hfits
  rw [h', compile_unique h h']

/-- What compiles in one buffer does not fit into a shorter one than it takes. -/
theorem compile_of_not_fits (h : c.compile pattern buffer = .ok r)
    (hlt : other.length < r.toBytes.length) :
    ∃ position, c.compile pattern other = .error ⟨.tooLarge, position⟩ := by
  have hle := Nat.le_trans (Nat.le_of_lt hlt) (length_toBytes_le h)
  have hlimited := c.limited_compile (Nat.le_refl _) pattern hle
  rw [h] at hlimited
  generalize hresult : c.compile pattern other = result at hlimited ⊢
  cases hlimited with
  | @ok r' _ hr =>
    subst hr
    exact absurd (length_toBytes_le hresult) (Nat.not_le_of_lt hlt)
  | cut hcut =>
    cases hcut with
    | nesting hlt => exact absurd hlt (Nat.lt_irrefl _)
    | room _ position => exact ⟨position, rfl⟩

/-- **Limits only ever turn a result into the error of a limit.**  With a limit on the nesting and a
buffer, compiling gives what it gives with any limit and buffer that are no lower and no shorter,
error and position included; or, if the limit is lower, that groups are nested too deep; or, if the
buffer is shorter, that the code does not fit.  What the buffers hold does not matter.  A pattern
that compiles with the limit in some buffer compiles to the same in every buffer that is as long as
the compiled pattern, and fits into no shorter one. -/
theorem compile_limits {c c' : Compiler} (hdepth : c.maxNesting ≤ c'.maxNesting)
    (pattern : List UInt8) {buffer buffer' : List UInt8} (hle : buffer.length ≤ buffer'.length) :
    (c.compile pattern buffer = c'.compile pattern buffer' ∨
      (c.maxNesting < c'.maxNesting ∧
        ∃ position, c.compile pattern buffer = .error ⟨.nestingTooDeep, position⟩) ∨
      (buffer.length < buffer'.length ∧
        ∃ position, c.compile pattern buffer = .error ⟨.tooLarge, position⟩)) ∧
    ∀ r, c.compile pattern buffer = .ok r → ∀ other : List UInt8,
      (r.toBytes.length ≤ other.length → c.compile pattern other = .ok r) ∧
      (other.length < r.toBytes.length →
        ∃ position, c.compile pattern other = .error ⟨.tooLarge, position⟩) := by
  refine ⟨?_, fun r h other => ⟨compile_of_fits h, compile_of_not_fits h⟩⟩
  have hlimited := limited_compile hdepth pattern hle
  generalize c.compile pattern buffer = result at hlimited ⊢
  generalize c'.compile pattern buffer' = result' at hlimited ⊢
  cases hlimited with
  | ok h => exact Or.inl (congrArg Except.ok h)
  | same => exact Or.inl rfl
  | cut hcut =>
    cases hcut with
    | nesting hlt position => exact Or.inr (Or.inl ⟨hlt, position, rfl⟩)
    | room hlt position => exact Or.inr (Or.inr ⟨hlt, position, rfl⟩)

/-- The pattern `<a|b>{2}` takes 39 bytes, and compiles to them in whatever holds them. -/
theorem compile_limits_branching :
    ({ maxNesting := 20 } : Compiler).compile [0x3c, 0x61, 0x7c, 0x62, 0x3e, 0x7b, 0x32, 0x7d]
        (List.replicate 40 0xFF) = .ok .branching ∧
      ({} : Compiler).compile [0x3c, 0x61, 0x7c, 0x62, 0x3e, 0x7b, 0x32, 0x7d]
        (List.replicate 39 0xFF) = .ok .branching ∧
      ∃ position, ({} : Compiler).compile [0x3c, 0x61, 0x7c, 0x62, 0x3e, 0x7b, 0x32, 0x7d]
        (List.replicate 38 0xFF) = .error ⟨.tooLarge, position⟩ := by
  have hlength : Regex.branching.toBytes.length = 39 := by decide +kernel
  have hle : (List.replicate 39 (0 : UInt8)).length ≤
      (List.replicate 40 (0xFF : UInt8)).length := by
    rw [List.length_replicate, List.length_replicate]
    decide
  have hdepth : ({} : Compiler).maxNesting ≤ ({ maxNesting := 20 } : Compiler).maxNesting := by
    decide
  obtain ⟨hsame, hroom⟩ :=
    compile_limits hdepth [0x3c, 0x61, 0x7c, 0x62, 0x3e, 0x7b, 0x32, 0x7d] hle
  rw [compile_branching] at hsame
  refine ⟨?_, (hroom _ compile_branching _).1 ?_, (hroom _ compile_branching _).2 ?_⟩
  · rcases hsame with hsame | ⟨-, _, hsame⟩ | ⟨-, _, hsame⟩
    · exact hsame.symm
    · cases hsame
    · cases hsame
  · rw [hlength, List.length_replicate]
  · rw [hlength, List.length_replicate]
    decide

end Compiler

end BoundedRegex
