import BoundedRegex.Proofs.Compile.Compiler
import BoundedRegex.Proofs.Match.Termination
import BoundedRegex.Proofs.Pattern.Language
import BoundedRegex.Proofs.Pattern.Unambiguous

/-!
# Matching compiled patterns

The promises of a compiled pattern: its scratch depth is as many frames as matching it ever needs,
matching it gives the results of the expression that the pattern stands for, in order of priority,
those end where the language of the expression says, and matching it ends.
-/

namespace BoundedRegex

/-- Code of an expression that accepts behind it enumerates the results of the expression. -/
theorem Expr.enumerates_of_code {e : Expr} (hwf : e.WellFormed) {p : Program}
    (hcode : p.code = e.code ++ Instr.accept.encode) (hlen : p.code.length ≤ maxCodeLength)
    {input : Array UInt8} {start d : Nat} (hstart : start ≤ input.size) (hd : e.peak ≤ d) :
    Enumerates p input d (.running 0 start [] []) (e.results input ⟨start, []⟩) := by
  have hholds : p.Holds 0 (e.code ++ Instr.accept.encode) := ⟨[], [], by simpa using hcode, rfl⟩
  have hlaid := e.laidOut_of_holds hholds.left hlen
  exact hlaid.enumerates hwf (hholds.right.fetch?_eq trivial) hstart hd

/-- **The scratch depth is enough.** -/
theorem Compiler.scratchDepth_suffices {c : Compiler} {pattern buffer : List UInt8} {r : Regex}
    (h : c.compile pattern buffer = .ok r) {frames : Array Frame}
    (hframes : frames.size = r.scratchDepth.toNat) {captures : Array Capture} {stepLimit : Nat}
    {m : Matcher}
    (hm : Matcher.After { program := .ofCode r.code, frames, captures, stepLimit } m) :
    m.peak ≤ r.scratchDepth.toNat ∧
      (∀ (input : Array UInt8) (start : Nat) (s : MachineState), start ≤ input.size →
        Machine.Reaches m.program input (.initial start m.frames m.captures m.peak) s →
        s.sp ≤ r.scratchDepth.toNat ∧ s.peak ≤ r.scratchDepth.toNat) ∧
      (∀ (input : Array UInt8) (start capacity : Nat),
        (∀ {σ : Type} (f : Callback σ) (gathered : σ),
          (m.tryMatch input start f gathered).outcome ≠ .error (.scratchExhausted capacity)) ∧
        (m.matchAt input start).1 ≠ .error (.scratchExhausted capacity) ∧
        (m.findAt input start).1 ≠ .error (.scratchExhausted capacity)) := by
  obtain ⟨e, n, -, hwf, hcode, hdepth, -⟩ := c.compile_derives h
  have hstart : Matcher.Fits r.scratchDepth.toNat
      { program := .ofCode r.code, frames, captures, stepLimit } := {
    enumerates := fun input start hstart =>
      ⟨_, Expr.enumerates_of_code hwf hcode r.code_le hstart (Nat.le_of_eq hdepth.symm)⟩
    le_size := Nat.le_of_eq hframes.symm
    peak_le := Nat.zero_le _ }
  have hfits := hstart.after hm
  exact ⟨hfits.peak_le, fun input start s hle hs => hfits.of_reaches hle hs,
    fun input start capacity =>
      ⟨fun f gathered => (hfits.tryMatch input start f gathered).1 capacity,
        (hfits.matchAt input start).1 capacity, (hfits.findAt input start).1 capacity⟩⟩

/-- The pattern `a+`, compiled. -/
def Regex.aPlus : Regex :=
  { code := [0xAA, 0x08, 3, 1, 255, 1, 0, 0x61, 0xAA, 0x00]
    scratchDepth := 1
    captures := 0
    loopBound := 0
    code_le := by decide
    loopBound_lt := by decide }

theorem Compiler.compile_aPlus :
    ({} : Compiler).compile [0x61, 0x2b] (List.replicate 19 0) = .ok .aPlus := by
  have htokens : Lexemes.ofPattern [0x61, 0x2b] =
      .cons ⟨.byte 0x61, 0⟩ (.cons ⟨.quantifier ⟨1, 255, true⟩, 1⟩ ⟨[], .ok 2⟩) :=
    Lexemes.ofText_cons rfl (Lexemes.ofText_cons rfl (Lexemes.ofText_nil 2))
  rw [Compiler.compile, htokens]
  rfl

theorem Compiler.scratchDepth_suffices_aPlus :
    ({} : Compiler).compile [0x61, 0x2b] (List.replicate 19 0) = .ok .aPlus ∧
      (#[.blank] : Array Frame).size = Regex.aPlus.scratchDepth.toNat ∧
      ∃ m : Matcher, m = ((Matcher.ofRegex .aPlus 1 0).findAt #[0x61] 0).2 ∧ m.peak ≤ 1 ∧
        ∀ capacity, (m.findAt #[0x62, 0x61, 0x61] 0).1 ≠ .error (.scratchExhausted capacity) := by
  have hm : (Matcher.ofRegex .aPlus 1 0).After
      ((Matcher.ofRegex .aPlus 1 0).findAt #[0x61] 0).2 :=
    .findAt .start _ _
  obtain ⟨hpeak, -, hcalls⟩ := Compiler.scratchDepth_suffices Compiler.compile_aPlus
    (by rfl : (#[.blank] : Array Frame).size = _) hm
  exact ⟨Compiler.compile_aPlus, rfl, _, rfl, hpeak, fun capacity => (hcalls _ 0 capacity).2.2⟩

/-- **Matching implements the priorities of the pattern.**  A pattern that compiles stands for just
one expression.  At an offset of the input, with as many frames as the scratch depth and enough
steps, `tryMatch` gives the results of the expression to the callback, in their order and until
that stops, and `matchAt` comes to the first of them; unless the slots for captures run out. -/
theorem Compiler.tryMatch_results {c : Compiler} {pattern buffer : List UInt8} {r : Regex}
    (h : c.compile pattern buffer = .ok r) :
    ∃ e n, Derives .alternation 0 (Lexemes.kinds pattern) e n ∧
      (∀ e' n', Derives .alternation 0 (Lexemes.kinds pattern) e' n' → e' = e) ∧
      ∀ (input : Array UInt8) (start : Nat), start ≤ input.size →
        ∃ steps, ∀ m : Matcher, m.program = .ofCode r.code →
          r.scratchDepth.toNat ≤ m.frames.size → steps ≤ m.stepLimit →
          (∀ {σ : Type} (f : Callback σ) (gathered : σ),
            Matcher.Delivers f gathered
              ((e.results input ⟨start, []⟩).map (Point.toMatch start)) m.captures.size
              (m.tryMatch input start f gathered).outcome
              (m.tryMatch input start f gathered).gathered) ∧
          ((m.matchAt input start).1 =
              .ok ((e.results input ⟨start, []⟩).map (Point.toMatch start)).head? ∨
            (m.matchAt input start).1 = .error (.captureBufferExhausted m.captures.size)) := by
  obtain ⟨e, n, hderives, hwf, hcode, hdepth, -⟩ := c.compile_derives h
  refine ⟨e, n, hderives, fun e' n' h' => (h'.unique hderives).1, ?_⟩
  intro input start hstart
  obtain ⟨steps, hsettles⟩ := (Expr.enumerates_of_code (p := .ofCode r.code) hwf hcode r.code_le
    hstart (Nat.le_of_eq hdepth.symm)).settles
  refine ⟨steps, ?_⟩
  intro m hprogram hframes hsteps
  rw [← hprogram] at hsettles
  have hdelivers {σ : Type} (f : Callback σ) (gathered : σ) :=
    Matcher.tryMatch_delivers hstart hsettles hframes hsteps f gathered
  exact ⟨hdelivers, Matcher.matchAt_of_delivers (hdelivers _ _)⟩

theorem Compiler.tryMatch_results_aPlus :
    ({} : Compiler).compile [0x61, 0x2b] (List.replicate 19 0) = .ok .aPlus ∧
      ∃ e n, Derives .alternation 0 (Lexemes.kinds [0x61, 0x2b]) e n ∧
        ∃ steps, ∀ m : Matcher, m.program = .ofCode Regex.aPlus.code → 1 ≤ m.frames.size →
          steps ≤ m.stepLimit →
          (m.matchAt #[0x61, 0x61] 0).1 =
              .ok ((e.results #[0x61, 0x61] ⟨0, []⟩).map (Point.toMatch 0)).head? ∨
            (m.matchAt #[0x61, 0x61] 0).1 = .error (.captureBufferExhausted m.captures.size) := by
  obtain ⟨e, n, hderives, -, h⟩ := Compiler.tryMatch_results Compiler.compile_aPlus
  obtain ⟨steps, hsteps⟩ := h #[0x61, 0x61] 0 (by decide)
  exact ⟨Compiler.compile_aPlus, e, n, hderives, steps,
    fun m hprogram hframes hlimit => (hsteps m hprogram hframes hlimit).2⟩

/-- **Matching agrees with the language of the pattern.**  A pattern that compiles stands for just
one expression.  With as many frames as the scratch depth and enough steps, all the matches at an
offset are spans of the expression.  If the slots for captures do not run out, and what the pattern
repeats without a bound has no alternation and no repetition in it, then there is a match for each
span, and `matchAt` finds none only if there is no span. -/
theorem Compiler.enumeration_spans {c : Compiler} {pattern buffer : List UInt8} {r : Regex}
    (h : c.compile pattern buffer = .ok r) :
    ∃ e n, Derives .alternation 0 (Lexemes.kinds pattern) e n ∧
      (∀ e' n', Derives .alternation 0 (Lexemes.kinds pattern) e' n' → e' = e) ∧
      ∀ (input : Array UInt8) (start : Nat),
        ∃ steps, ∀ m : Matcher, m.program = .ofCode r.code →
          r.scratchDepth.toNat ≤ m.frames.size → steps ≤ m.stepLimit →
          (∀ found ∈ (m.enumeration input start).gathered,
            found.start = start ∧ e.Spans input start found.stop) ∧
          ((m.enumeration input start).outcome ≠ .error (.captureBufferExhausted m.captures.size) →
            (m.enumeration input start).outcome = .ok none ∧
              (e.HasPlainLoops → ∀ j, e.Spans input start j →
                ∃ found ∈ (m.enumeration input start).gathered, found.stop = j)) ∧
          (e.HasPlainLoops → (m.matchAt input start).1 = .ok none →
            ∀ j, ¬e.Spans input start j) := by
  obtain ⟨e, n, hderives, hwf, hcode, hdepth, -⟩ := c.compile_derives h
  refine ⟨e, n, hderives, fun e' n' h' => (h'.unique hderives).1, ?_⟩
  intro input start
  by_cases hstart : start ≤ input.size
  · obtain ⟨steps, hsettles⟩ := (Expr.enumerates_of_code (p := .ofCode r.code) hwf hcode r.code_le
      hstart (Nat.le_of_eq hdepth.symm)).settles
    refine ⟨steps, ?_⟩
    intro m hprogram hframes hsteps
    rw [← hprogram] at hsettles
    obtain ⟨hread, hall⟩ := Matcher.enumeration_of_delivers
      (Matcher.tryMatch_delivers hstart hsettles hframes hsteps Matcher.collectAll [])
    have hmatchAt := Matcher.matchAt_of_delivers
      (Matcher.tryMatch_delivers hstart hsettles hframes hsteps Matcher.firstOnly ())
    refine ⟨fun found hfound => ?_, fun hne => ⟨(hall hne).1, fun hplain j hj => ?_⟩,
      fun hplain hnone j hj => ?_⟩
    · obtain ⟨t, ht, rfl⟩ := List.mem_map.1 (hread.subset hfound)
      exact ⟨rfl, e.spans_of_mem_results hstart ht⟩
    · obtain ⟨t, ht, rfl⟩ := e.exists_mem_results hwf hplain (s := ⟨start, []⟩) hj
      exact ⟨t.toMatch start, (hall hne).2 ▸ List.mem_map_of_mem ht, rfl⟩
    · obtain ⟨t, ht, -⟩ := e.exists_mem_results hwf hplain (s := ⟨start, []⟩) hj
      rw [hnone] at hmatchAt
      rcases hmatchAt with hhead | herror
      · have hnil := List.head?_eq_none_iff.1 (Except.ok.inj hhead).symm
        exact List.not_mem_nil (List.map_eq_nil_iff.1 hnil ▸ ht)
      · cases herror
  · -- There are no matches beyond the end of the input, and no spans.
    refine ⟨0, fun m _ _ _ => ?_⟩
    have hspans (j : Nat) : ¬e.Spans input start j := fun hj =>
      hstart (Nat.le_trans hj.within.1 hj.within.2)
    rw [Matcher.enumeration, Matcher.tryMatch, if_neg hstart]
    exact ⟨fun found hfound => absurd hfound List.not_mem_nil,
      fun _ => ⟨rfl, fun _ j hj => absurd hj (hspans j)⟩, fun _ _ => hspans⟩

theorem Compiler.enumeration_spans_aPlus :
    ({} : Compiler).compile [0x61, 0x2b] (List.replicate 19 0) = .ok .aPlus ∧
      ∃ e n, Derives .alternation 0 (Lexemes.kinds [0x61, 0x2b]) e n ∧ e.HasPlainLoops ∧
        e.Spans #[0x61, 0x61] 0 1 ∧
        ∃ steps, ∀ m : Matcher, m.program = .ofCode Regex.aPlus.code → 1 ≤ m.frames.size →
          steps ≤ m.stepLimit →
          (m.enumeration #[0x61, 0x61] 0).outcome ≠
              .error (.captureBufferExhausted m.captures.size) →
          ∃ found ∈ (m.enumeration #[0x61, 0x61] 0).gathered, found.stop = 1 := by
  have hkinds : Lexemes.kinds [0x61, 0x2b] = [.byte 0x61, .quantifier ⟨1, 255, true⟩] := by
    decide +kernel
  have hderives : Derives .alternation 0 (Lexemes.kinds [0x61, 0x2b])
      (.repetition (.leaf (.byte 0x61)) ⟨1, 255, true⟩) 0 :=
    hkinds ▸ .last (.one (.quantified _ (.byte 0 0x61) rfl))
  obtain ⟨e, n, he, hunique, h⟩ := Compiler.enumeration_spans Compiler.compile_aPlus
  obtain rfl := hunique _ _ hderives
  obtain ⟨steps, hsteps⟩ := h #[0x61, 0x61] 0
  have hspans : Expr.Spans #[0x61, 0x61] (.repetition (.leaf (.byte 0x61)) ⟨1, 255, true⟩) 0 1 :=
    ⟨by decide, 1, ⟨by decide, Or.inl rfl⟩, 1, ⟨⟨0x61, rfl, rfl⟩, rfl⟩, rfl⟩
  refine ⟨Compiler.compile_aPlus, _, n, he, ⟨fun _ => rfl, trivial⟩, hspans, steps, ?_⟩
  intro m hprogram hframes hlimit hne
  exact ((hsteps m hprogram hframes hlimit).2.1 hne).2 ⟨fun _ => rfl, trivial⟩ 1 hspans

/-- The pattern `<a|b>{2}`, compiled: a loop that keeps frames, around a capture of two
alternatives. -/
def Regex.branching : Regex :=
  { code := [
      0xAA, 0x08, 5, 2, 2, 20, 0, -- 0: the loop
      0xAA, 0x0A, 0, -- 7: the capture starts
      0xAA, 0x01, 9, 0, 0x61, -- 10: 'a', or else to 19
      0xAA, 0x02, 5, 0, 0x62, -- 15: to 20; 'b'
      0xAA, 0x0B, 0, -- 20: the capture ends
      0xAA, 0x09, 0xE9, 0xFF, -- 23: the end of an iteration
      0xAA, 0x00] -- 27: accepts
    scratchDepth := 6
    captures := 1
    loopBound := 1
    code_le := by decide
    loopBound_lt := by decide }

/-- Compiling a given pattern can be evaluated. -/
theorem Compiler.compile_eq_ok {c : Compiler} {pattern buffer : List UInt8} {r : Regex}
    (h : (c.compile pattern buffer).toOption = some r) : c.compile pattern buffer = .ok r := by
  cases hresult : c.compile pattern buffer with
  | error => rw [hresult] at h; cases h
  | ok r' => rw [hresult] at h; cases h; rfl

theorem Compiler.compile_branching :
    ({} : Compiler).compile [0x3c, 0x61, 0x7c, 0x62, 0x3e, 0x7b, 0x32, 0x7d]
      (List.replicate 39 0) = .ok .branching :=
  compile_eq_ok (by decide +kernel)

/-- The pattern `a*`, compiled: the code of `a+` but for a byte in the loop. -/
def Regex.aStar : Regex :=
  { Regex.aPlus with
    code := [0xAA, 0x08, 3, 0, 255, 1, 0, 0x61, 0xAA, 0x00]
    code_le := by decide }

theorem Compiler.compile_aStar :
    ({} : Compiler).compile [0x61, 0x2a] (List.replicate 19 0) = .ok .aStar :=
  compile_eq_ok (by decide +kernel)

/-- **Matching a compiled pattern ends.**  There is a number of steps, for each code and each length
of the input, that is enough for every attempt: at any offset, with any buffers and any callback. -/
theorem Compiler.matching_ends :
    ∃ bound : List UInt8 → Nat → Nat, ∀ (c : Compiler) (pattern buffer : List UInt8) (r : Regex),
      c.compile pattern buffer = .ok r → ∀ m : Matcher, m.program = .ofCode r.code →
        ∀ (input : Array UInt8) (start : Nat), bound r.code input.size ≤ m.stepLimit →
          (∀ {σ : Type} (f : Callback σ) (gathered : σ),
            Matcher.Conclusive (m.tryMatch input start f gathered).outcome) ∧
          Matcher.Conclusive (m.matchAt input start).1 ∧
          Matcher.Conclusive (m.findAt input start).1 := by
  -- A number of steps that is enough for attempts at running a code, if some number is.
  have hbound (code : List UInt8) (n : Nat) : ∃ k,
      ∀ (c : Compiler) (pattern buffer : List UInt8) (r : Regex),
        c.compile pattern buffer = .ok r → r.code = code →
          ∀ (input : Array UInt8) (start : Nat), input.size = n → start ≤ n →
            EndsWithin (.ofCode code) input (.running 0 start [] []) k := by
    by_cases hcode : ∃ (c : Compiler) (pattern buffer : List UInt8) (r : Regex),
        c.compile pattern buffer = .ok r ∧ r.code = code
    · obtain ⟨c, pattern, buffer, r, h, rfl⟩ := hcode
      obtain ⟨e, n', -, hwf, hcode, -, -⟩ := c.compile_derives h
      obtain ⟨k, hk⟩ := exists_stepBound (p := .ofCode r.code) (fun input start hstart =>
        (Expr.enumerates_of_code hwf hcode r.code_le hstart (Nat.le_refl _)).endsWithin) n
      exact ⟨k, fun _ _ _ _ _ _ => hk⟩
    · exact ⟨0, fun c pattern buffer r h hr => absurd ⟨c, pattern, buffer, r, h, hr⟩ hcode⟩
  choose bound hbound using hbound
  refine ⟨bound, ?_⟩
  intro c pattern buffer r h m hm input start hlimit
  have hends (start : Nat) (hstart : start ≤ input.size) :
      EndsWithin m.program input (.running 0 start [] []) (bound r.code input.size) :=
    hm ▸ hbound r.code input.size c pattern buffer r h rfl input start rfl hstart
  exact ⟨fun f gathered => Matcher.tryMatch_conclusive (hends start) hlimit f gathered,
    Matcher.tryMatch_conclusive (hends start) hlimit Matcher.firstOnly (),
    Matcher.findAt_conclusive hends hlimit start⟩

theorem Compiler.matching_ends_branching :
    ({} : Compiler).compile [0x3c, 0x61, 0x7c, 0x62, 0x3e, 0x7b, 0x32, 0x7d]
        (List.replicate 39 0) = .ok .branching ∧
      ∃ steps, ∀ m : Matcher, m.program = .ofCode Regex.branching.code → steps ≤ m.stepLimit →
        Matcher.Conclusive (m.findAt #[0x61, 0x62, 0x61] 0).1 := by
  obtain ⟨bound, hbound⟩ := Compiler.matching_ends
  refine ⟨Compiler.compile_branching, bound Regex.branching.code 3, fun m hm hlimit => ?_⟩
  exact (hbound _ _ _ _ Compiler.compile_branching m hm #[0x61, 0x62, 0x61] 0 hlimit).2.2

end BoundedRegex
