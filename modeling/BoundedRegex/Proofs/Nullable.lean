import BoundedRegex.Proofs.Compile.Grouped
import BoundedRegex.Proofs.Isolated
import BoundedRegex.Proofs.Regex.Bytes

/-!
# What is refused for being empty

No repetition of what can match the empty string is compiled.  That it can is read off the shape of
the expression, and the matcher agrees: a repetition of a whole pattern is refused just if the
pattern has a match in the empty input, and if it is not refused then no match of the pattern is
empty, in any input (`Compiler.refuses_empty`).
-/

namespace BoundedRegex

namespace Expr

variable {e : Expr} {p : Program} {m : Matcher}

/-- What is nullable has a match in the empty input: `matchAt` finds it, with as many frames as the
expression takes, and enough slots and steps. -/
theorem exists_matchAt_of_nullable (hwf : e.WellFormed)
    (hcode : p.code = e.code ++ Instr.accept.encode) (hlen : p.code.length ≤ maxCodeLength)
    (hnull : e.nullable = true) :
    ∃ slots steps, ∀ m : Matcher, m.program = p → e.peak ≤ m.frames.size →
      slots ≤ m.captures.size → steps ≤ m.stepLimit →
      ∃ found, (m.matchAt #[] 0).1 = .ok (some found) := by
  have henum := enumerates_of_code hwf hcode hlen (Nat.zero_le (#[] : Array UInt8).size)
    (Nat.le_refl e.peak)
  obtain ⟨t, ht, -⟩ := e.exists_mem_results_of_nullable hnull (Array.size_empty (α := UInt8)) []
  obtain ⟨first, rest, hresults⟩ := List.exists_cons_of_ne_nil (List.ne_nil_of_mem ht)
  rw [hresults] at henum
  obtain ⟨steps, slots, hfirst⟩ := FirstMatch.of_enumerates henum
  refine ⟨slots, steps, fun m hm hframes hslots hsteps => ⟨first.toMatch 0, ?_⟩⟩
  rw [Matcher.matchAt, Matcher.tryMatch_eq m (Nat.zero_le _), hm]
  have hrun := hfirst.run_eq henum 0 m.stepLimit hsteps (MachineState.sane_initial ..)
    (MachineState.config_initial 0 m.frames m.captures m.peak) hframes
  exact hrun.trans (if_pos hslots)

/-- What is not nullable has no empty match: whatever is reported, and whatever is the match at
which an attempt ends, consumes. -/
theorem lt_of_reported (hwf : e.WellFormed) (hnull : e.nullable = false)
    (hcode : p.code = e.code ++ Instr.accept.encode) (hlen : p.code.length ≤ maxCodeLength)
    (hm : m.program = p) (input : Array UInt8) (start : Nat) {σ : Type}
    (f : Callback σ) (gathered : σ) :
    (∀ found ∈ m.reported input start f gathered, found.start < found.stop) ∧
      ∀ found, (m.tryMatch input start f gathered).outcome = .ok (some found) →
        found.start < found.stop := by
  subst hm
  by_cases hstart : start ≤ input.size
  · have henum := enumerates_of_code hwf hcode hlen hstart (Nat.le_refl e.peak)
    obtain ⟨hreported, hfound⟩ := Matcher.mem_of_reported hstart henum f gathered
    refine ⟨fun found hmem => ?_, fun found hout => ?_⟩
    · obtain ⟨t, ht, rfl⟩ := hreported found hmem
      exact e.lt_of_mem_results hwf hnull ht
    · obtain ⟨t, ht, rfl⟩ := hfound found hout
      exact e.lt_of_mem_results hwf hnull ht
  · -- Beyond the end of the input there are no matches at all.
    rw [Matcher.reported, Matcher.tryMatch, Matcher.tryMatch, if_neg hstart, if_neg hstart]
    exact ⟨fun found hmem => absurd hmem List.not_mem_nil, fun found hout => by cases hout⟩

/-- What is not nullable has no match in the empty input. -/
theorem matchAt_nil_of_not_nullable (hwf : e.WellFormed) (hnull : e.nullable = false)
    (hcode : p.code = e.code ++ Instr.accept.encode) (hlen : p.code.length ≤ maxCodeLength)
    (hm : m.program = p) (found : Match) : (m.matchAt #[] 0).1 ≠ .ok (some found) := by
  subst hm
  intro hmatch
  have henum := enumerates_of_code hwf hcode hlen (Nat.zero_le (#[] : Array UInt8).size)
    (Nat.le_refl e.peak)
  obtain ⟨-, hfound⟩ := Matcher.mem_of_reported (Nat.zero_le _) henum Matcher.firstOnly ()
  obtain ⟨t, ht, -⟩ := hfound found hmatch
  have hlt := e.lt_of_mem_results hwf hnull ht
  have hle := (e.advance_of_mem_results ht).pos_le_size (Nat.zero_le _)
  exact absurd hlt (Nat.not_lt_of_le hle)

end Expr

/-- **Just what matches the empty input is refused for being empty.**  Let a pattern compile, and
let the limit on nesting be higher now and the buffer no shorter than the bytes that the pattern
compiles to.  Then a repetition of the whole pattern is refused, where its star stands, if and only
if `matchAt` finds a match of the pattern in the empty input, with as many frames as the scratch
depth and enough slots and steps.  And if it is not refused so, then no match of the pattern is
empty: none that is reported to a callback, and none that `matchAt` or `findAt` finds, whatever the
input, the offset and the buffers. -/
theorem Compiler.refuses_empty {c c' : Compiler} {pattern buffer buffer' : List UInt8} {r : Regex}
    (h : c.compile pattern buffer = .ok r) (hc : c.maxNesting < c'.maxNesting)
    (hroom : r.toBytes.length ≤ buffer'.length) :
    (∃ slots steps, ∀ m : Matcher, m.program = .ofCode r.code →
      r.scratchDepth.toNat ≤ m.frames.size → slots ≤ m.captures.size → steps ≤ m.stepLimit →
      (c'.compile (starred pattern) buffer' =
          .error ⟨.unboundedEmptyRepetition, pattern.length + 2⟩ ↔
        ∃ found, (m.matchAt #[] 0).1 = .ok (some found))) ∧
    (c'.compile (starred pattern) buffer' ≠
        .error ⟨.unboundedEmptyRepetition, pattern.length + 2⟩ →
      ∀ m : Matcher, m.program = .ofCode r.code → ∀ (input : Array UInt8) (start : Nat),
        (∀ {σ : Type} (f : Callback σ) (gathered : σ),
          ∀ found ∈ m.reported input start f gathered, found.start < found.stop) ∧
        (∀ found, (m.matchAt input start).1 = .ok (some found) → found.start < found.stop) ∧
        (∀ found, (m.findAt input start).1 = .ok (some found) → found.start < found.stop)) := by
  obtain ⟨⟨length, hending⟩, e, n, d, hphrase, hd, hn, he, hcode, hdepth⟩ := phrase_of_compile h
  have hwf : e.WellFormed :=
    ((hphrase.derives hn he).wellFormed Lexemes.inOrder_kinds).2.2
  have hlength : e.code.length ≤ r.code.length := by
    rw [hcode, List.length_append]
    exact Nat.le_add_right ..
  have hbytes : e.code.length ≤ buffer'.length := by
    rw [r.readsAs_toBytes.length] at hroom
    omega
  have hiff := compile_starred_iff (c := c') hending hphrase (Nat.lt_of_le_of_lt hd hc) hn he
    (Nat.le_min.2 ⟨hbytes, Nat.le_trans hlength r.code_le⟩)
  simp only [hiff, ne_eq, Bool.not_eq_true]
  refine ⟨?_, fun hnull m hm input start => ?_⟩
  · cases hnull : e.nullable with
    | true =>
      obtain ⟨slots, steps, hfind⟩ :=
        Expr.exists_matchAt_of_nullable (p := .ofCode r.code) hwf hcode r.code_le hnull
      refine ⟨slots, steps, fun m hm hframes hslots hsteps => iff_of_true rfl ?_⟩
      exact hfind m hm (hdepth ▸ hframes) hslots hsteps
    | false =>
      refine ⟨0, 0, fun m hm _ _ _ => iff_of_false Bool.false_ne_true ?_⟩
      rintro ⟨found, hfound⟩
      exact Expr.matchAt_nil_of_not_nullable hwf hnull hcode r.code_le hm found hfound
  · have hconsumes {m' : Matcher} (hm' : m'.program = m.program) (start : Nat) {σ : Type}
        (f : Callback σ) (gathered : σ) :=
      Expr.lt_of_reported (p := .ofCode r.code) hwf hnull hcode r.code_le (hm'.trans hm) input start
        f gathered
    refine ⟨fun f gathered => (hconsumes rfl start f gathered).1,
      (hconsumes rfl start Matcher.firstOnly ()).2, fun found hfound => ?_⟩
    obtain ⟨m', offset, hlike, hmatch⟩ := Matcher.exists_matchAt_of_findAt hfound (by simp)
    exact (hconsumes hlike.program offset Matcher.firstOnly ()).2 found hmatch

/-- `(a+)*` compiles, so there is no match of `a+` in the empty input, and no empty one elsewhere.
`(a*)*` is refused, so there is a match of `a*` in the empty input. -/
theorem Compiler.refuses_empty_plus_star :
    let c : Compiler := { maxNesting := 17 }
    let buffer : List UInt8 := List.replicate 40 0
    ({} : Compiler).compile [0x61, 0x2b] (List.replicate 19 0) = .ok .aPlus ∧
      ({} : Compiler).compile [0x61, 0x2a] (List.replicate 19 0) = .ok .aStar ∧
      ({} : Compiler).maxNesting < c.maxNesting ∧
      Regex.aPlus.toBytes.length ≤ buffer.length ∧ Regex.aStar.toBytes.length ≤ buffer.length ∧
      c.compile (starred [0x61, 0x2b]) buffer ≠ .error ⟨.unboundedEmptyRepetition, 4⟩ ∧
      c.compile (starred [0x61, 0x2a]) buffer = .error ⟨.unboundedEmptyRepetition, 4⟩ ∧
      (∃ slots steps, ∀ m : Matcher, m.program = .ofCode Regex.aPlus.code → 1 ≤ m.frames.size →
        slots ≤ m.captures.size → steps ≤ m.stepLimit →
          ∀ found, (m.matchAt #[] 0).1 ≠ .ok (some found)) ∧
      (∀ found, ((Matcher.ofRegex .aPlus 1 0).findAt #[0x62, 0x61] 0).1 = .ok (some found) →
        found.start < found.stop) ∧
      ∃ slots steps, ∀ m : Matcher, m.program = .ofCode Regex.aStar.code → 1 ≤ m.frames.size →
        slots ≤ m.captures.size → steps ≤ m.stepLimit →
          ∃ found, (m.matchAt #[] 0).1 = .ok (some found) := by
  intro c buffer
  have hnesting : ({} : Compiler).maxNesting < c.maxNesting := by decide
  have hplusRoom : Regex.aPlus.toBytes.length ≤ buffer.length := by decide +kernel
  have hstarRoom : Regex.aStar.toBytes.length ≤ buffer.length := by decide +kernel
  have hcompiles : (c.compile (starred [0x61, 0x2b]) buffer).toOption.isSome = true := by
    decide +kernel
  have haccepted : c.compile (starred [0x61, 0x2b]) buffer ≠
      .error ⟨.unboundedEmptyRepetition, 4⟩ := by
    intro hrefused
    rw [hrefused] at hcompiles
    cases hcompiles
  have hlexemes : Lexemes.ofPattern (starred [0x61, 0x2a]) =
      .cons ⟨.groupOpen, 0⟩ (.cons ⟨.byte 0x61, 1⟩ (.cons ⟨.quantifier ⟨0, 255, true⟩, 2⟩
        (.cons ⟨.groupClose, 3⟩ (.cons ⟨.quantifier ⟨0, 255, true⟩, 4⟩ ⟨[], .ok 5⟩)))) :=
    Lexemes.ofText_cons rfl <| Lexemes.ofText_cons rfl <| Lexemes.ofText_cons rfl <|
      Lexemes.ofText_cons rfl <| Lexemes.ofText_cons rfl <| Lexemes.ofText_nil 5
  have hrefused : c.compile (starred [0x61, 0x2a]) buffer =
      .error ⟨.unboundedEmptyRepetition, 4⟩ := by
    rw [compile, hlexemes]
    rfl
  obtain ⟨⟨plusSlots, plusSteps, hplus⟩, hconsumes⟩ :=
    Compiler.refuses_empty Compiler.compile_aPlus hnesting hplusRoom
  obtain ⟨⟨starSlots, starSteps, hstar⟩, -⟩ :=
    Compiler.refuses_empty Compiler.compile_aStar hnesting hstarRoom
  refine ⟨Compiler.compile_aPlus, Compiler.compile_aStar, hnesting, hplusRoom, hstarRoom, haccepted,
    hrefused, ⟨plusSlots, plusSteps, ?_⟩,
    (hconsumes haccepted (.ofRegex .aPlus 1 0) rfl #[0x62, 0x61] 0).2.2,
    ⟨starSlots, starSteps, ?_⟩⟩
  · intro m hm hframes hslots hsteps found hfound
    exact haccepted ((hplus m hm hframes hslots hsteps).2 ⟨found, hfound⟩)
  · intro m hm hframes hslots hsteps
    exact (hstar m hm hframes hslots hsteps).1 hrefused

end BoundedRegex
