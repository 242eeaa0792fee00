import BoundedRegex.Proofs.Leftmost
import BoundedRegex.Proofs.Limited
import BoundedRegex.Proofs.Match.Ample
import BoundedRegex.Proofs.Pattern.Marks

/-!
# Greediness changes only the order

A question mark behind a quantifier decides which matches are tried first.  If the operands of
unbounded quantifiers have no alternation and no quantifier in them, it decides nothing else.

* `Compiler.exists_compile_of_readAlike`: with its quantifiers greedy or not, a pattern compiles
  just the same, and into code for an expression that is the same but for greediness.
* `Matcher.findAt_start`: where a search finds a match depends on whether there are matches at an
  offset, and not on their order.
* `Compiler.greediness_reorders` puts them together.
-/

namespace BoundedRegex

variable {input : Array UInt8}

/-- A search with ample room finds the first offset at which there is a match. -/
theorem Matcher.findAt_start {m : Matcher} (hlimit : 2 ≤ m.stepLimit) {points : Nat → List Point}
    (h : ∀ offset < input.size + 1,
      (m.matchAt input offset).1 = .ok ((points offset).map (Point.toMatch offset)).head?)
    (start : Nat) :
    ∃ found, (m.findAt input start).1 = .ok found ∧
      found.map (·.start) = (List.range' start (input.size + 1 - start)).find?
        fun offset => !(points offset).isEmpty := by
  refine ⟨_, findAt_eq_findSome hlimit h start, ?_⟩
  generalize List.range' start (input.size + 1 - start) = offsets
  induction offsets with
  | nil => rfl
  | cons offset offsets ih =>
    rw [List.findSome?_cons, List.find?_cons]
    cases points offset with
    | nil => exact ih
    | cons point rest => rfl

/-- Code of an expression gives the results of the expression at all offsets, if there is ample
room. -/
theorem Expr.ample_of_code {e : Expr} (hwf : e.WellFormed) {p : Program}
    (hcode : p.code = e.code ++ Instr.accept.encode) (hlen : p.code.length ≤ maxCodeLength)
    {d : Nat} (hd : e.peak ≤ d) (input : Array UInt8) :
    ∃ slots steps, ∀ m : Matcher, m.Roomy d slots steps → ∀ offset < input.size + 1,
      m.program = p → ∀ {σ : Type} (f : Callback σ) (gathered : σ),
        Matcher.Gives f gathered ((e.results input ⟨offset, []⟩).map (Point.toMatch offset))
          (m.tryMatch input offset f gathered) := by
  refine Matcher.exists_roomy_forall ?_
  intro offset hoffset
  have hle : offset ≤ input.size := Nat.le_of_lt_succ hoffset
  obtain ⟨slots, steps, hgives⟩ :=
    Enumerates.ample hle (Expr.enumerates_of_code hwf hcode hlen hle hd)
  exact ⟨slots, steps, fun m hroomy hm => hgives m hm hroomy⟩

namespace Compiler

variable {c : Compiler} {pattern pattern' buffer : List UInt8} {r : Regex} {e : Expr} {n : Nat}

/-- With its quantifiers greedy or not, a pattern compiles just the same. -/
theorem exists_compile_of_readAlike (h : c.compile pattern buffer = .ok r)
    (he : Derives .alternation 0 (Lexemes.kinds pattern) e n) (hread : ReadAlike pattern pattern') :
    ∃ (r' : Regex) (e' : Expr), c.compile pattern' buffer = .ok r' ∧
      e'.greedily = e.greedily ∧ e'.WellFormed ∧
      r'.code = e'.code ++ Instr.accept.encode ∧ r'.scratchDepth = r.scratchDepth := by
  obtain ⟨hreadable, e₁, n₁, d, hphrase, hd, hn, hconsume, hcode, hdepth⟩ := phrase_of_compile h
  obtain ⟨rfl, rfl⟩ := (hphrase.derives hn hconsume).unique he
  obtain ⟨length, hending⟩ := hread.readable.1 hreadable
  obtain ⟨e', hphrase', hgreed⟩ := hphrase.of_greedily hread.kinds
  have hconsume' : e'.RepeatsConsume := by
    rw [← Expr.repeatsConsume_greedily, hgreed, Expr.repeatsConsume_greedily]
    exact hconsume
  have hlength : e'.code.length = e₁.code.length := by
    rw [← Expr.length_code_greedily, hgreed, Expr.length_code_greedily]
  have hpeak : e'.peak = e₁.peak := by
    rw [← Expr.peak_greedily, hgreed, Expr.peak_greedily]
  obtain ⟨r', h'⟩ : ∃ r', c.compile pattern' buffer = .ok r' := by
    refine exists_compile hending hphrase' hd hn hconsume' ?_ ?_ ?_
    · rw [hlength]
      exact length_code_le hcode
    · rw [hpeak, ← hdepth]
      exact Nat.le_of_lt_succ r.scratchDepth.toNat_lt
    · rw [hlength]
      exact room_of_compile h hphrase hn hcode
  obtain ⟨e₂, n₂, hderives₂, hwf₂, hcode₂, hdepth₂, -⟩ := c.compile_derives h'
  obtain ⟨rfl, -⟩ := (hphrase'.derives hn hconsume').unique hderives₂
  refine ⟨r', e', h', hgreed, hwf₂, hcode₂, UInt16.toNat_inj.1 ?_⟩
  rw [hdepth₂, hpeak, hdepth]

/-- **Greediness changes only the order of the matches.**  Let a pattern compile, and let no operand
of its unbounded quantifiers have an alternation or a quantifier in it.  Then every pattern that
comes from it by making quantifiers lazy or greedy compiles in the same buffer, to the same scratch
depth.  On every input and from every offset, with as many frames as that and with ample slots for
captures and steps, both report the same matches, each with its captures and as often, in whatever
order; and a search either finds a match at the same offset with both, or with neither. -/
theorem greediness_reorders (h : c.compile pattern buffer = .ok r)
    (he : Derives .alternation 0 (Lexemes.kinds pattern) e n) (hplain : e.HasPlainLoops)
    (hgreed : EqualButForGreed pattern pattern') :
    ∃ r', c.compile pattern' buffer = .ok r' ∧ r'.scratchDepth = r.scratchDepth ∧
      ∀ (input : Array UInt8) (start : Nat), ∃ slots steps, ∀ m m' : Matcher,
        m.program = .ofCode r.code → m'.program = .ofCode r'.code →
        m.Roomy r.scratchDepth.toNat slots steps → m'.Roomy r.scratchDepth.toNat slots steps →
        (m.enumeration input start).outcome = .ok none ∧
          (m'.enumeration input start).outcome = .ok none ∧
          (m.enumeration input start).gathered.Perm (m'.enumeration input start).gathered ∧
          ∃ found found', (m.findAt input start).1 = .ok found ∧
            (m'.findAt input start).1 = .ok found' ∧
            found.map (·.start) = found'.map (·.start) := by
  obtain ⟨r', e', h', hgreedily, hwf', hcode', hdepth'⟩ :=
    exists_compile_of_readAlike h he hgreed.readAlike
  obtain ⟨e₁, n₁, hderives, hwf, hcode, hdepth, -⟩ := c.compile_derives h
  obtain ⟨rfl, rfl⟩ := hderives.unique he
  have hpeak' : e'.peak ≤ r.scratchDepth.toNat := by
    rw [← Expr.peak_greedily, hgreedily, Expr.peak_greedily, hdepth]
  refine ⟨r', h', hdepth', fun input start => ?_⟩
  obtain ⟨slots, steps, hgives⟩ :=
    Expr.ample_of_code (p := .ofCode r.code) hwf hcode r.code_le (Nat.le_of_eq hdepth.symm) input
  obtain ⟨slots', steps', hgives'⟩ :=
    Expr.ample_of_code (p := .ofCode r'.code) hwf' hcode' r'.code_le hpeak' input
  refine ⟨Nat.max slots slots', Nat.max (Nat.max steps steps') 2, ?_⟩
  intro m m' hm hm' hroomy hroomy'
  have hlimit {m : Matcher} (h : Nat.max (Nat.max steps steps') 2 ≤ m.stepLimit) :
      2 ≤ m.stepLimit :=
    Nat.le_trans (Nat.le_max_right ..) h
  have hsteps : steps ≤ Nat.max (Nat.max steps steps') 2 :=
    Nat.le_trans (Nat.le_max_left ..) (Nat.le_max_left ..)
  have hsteps' : steps' ≤ Nat.max (Nat.max steps steps') 2 :=
    Nat.le_trans (Nat.le_max_right ..) (Nat.le_max_left ..)
  replace hgives := hgives m (hroomy.mono (Nat.le_max_left ..) hsteps)
  replace hgives' := hgives' m' (hroomy'.mono (Nat.le_max_right ..) hsteps')
  have hperm (offset : Nat) :
      (e₁.results input ⟨offset, []⟩).Perm (e'.results input ⟨offset, []⟩) :=
    Expr.perm_results input hgreedily hplain ⟨offset, []⟩
  obtain ⟨found, hfound, hstart⟩ := Matcher.findAt_start (hlimit hroomy.stepLimit)
    (fun offset hoffset => (hgives offset hoffset hm Matcher.firstOnly ()).matchAt) start
  obtain ⟨found', hfound', hstart'⟩ := Matcher.findAt_start (hlimit hroomy'.stepLimit)
    (fun offset hoffset => (hgives' offset hoffset hm' Matcher.firstOnly ()).matchAt) start
  have hsame : found.map (·.start) = found'.map (·.start) := by
    simp only [hstart, hstart', (hperm _).isEmpty_eq]
  by_cases hin : start ≤ input.size
  · obtain ⟨houtcome, hgathered⟩ :=
      (hgives start (Nat.lt_succ_of_le hin) hm Matcher.collectAll []).enumeration
    obtain ⟨houtcome', hgathered'⟩ :=
      (hgives' start (Nat.lt_succ_of_le hin) hm' Matcher.collectAll []).enumeration
    rw [hgathered, hgathered']
    exact ⟨houtcome, houtcome', (hperm start).map _, found, found', hfound, hfound', hsame⟩
  · rw [Matcher.enumeration, Matcher.enumeration, Matcher.tryMatch, Matcher.tryMatch, if_neg hin,
      if_neg hin]
    exact ⟨rfl, rfl, .refl _, found, found', hfound, hfound', hsame⟩

end Compiler

/-- The pattern `<a>+?a`, compiled: the code of `<a>+a` but for a byte in the loop. -/
def Regex.takingFew : Regex :=
  { Regex.givingBack with
    code := [
      0xAA, 0x08, 0, 1, 255, 11, 0, -- 0: the loop, not greedy
      0xAA, 0x0A, 0, 0x61, 0xAA, 0x0B, 0, 0xAA, 0x09, 0xF2, 0xFF, 0x61, 0xAA, 0x00]
    code_le := by decide }

/-- On `aaa` the patterns `<a>+a` and `<a>+?a` have the same two matches, in opposite orders. -/
theorem Compiler.greediness_reorders_givingBack :
    let pattern : List UInt8 := [0x3c, 0x61, 0x3e, 0x2b, 0x61]
    let pattern' : List UInt8 := [0x3c, 0x61, 0x3e, 0x2b, 0x3f, 0x61]
    let e : Expr := .seq (.repetition (.capture 0 (.leaf (.byte 0x61))) ⟨1, unboundedCount, true⟩)
      (.leaf (.byte 0x61))
    ({} : Compiler).compile pattern (List.replicate 31 0) = .ok .givingBack ∧
      Derives .alternation 0 (Lexemes.kinds pattern) e 1 ∧ e.HasPlainLoops ∧
      EqualButForGreed pattern pattern' ∧
      ({} : Compiler).compile pattern' (List.replicate 31 0) = .ok .takingFew ∧
      (∃ slots steps, ∀ m m' : Matcher, m.program = .ofCode Regex.givingBack.code →
        m'.program = .ofCode Regex.takingFew.code → m.Roomy 2 slots steps →
        m'.Roomy 2 slots steps →
        (m.enumeration #[0x61, 0x61, 0x61] 0).gathered.Perm
          (m'.enumeration #[0x61, 0x61, 0x61] 0).gathered) ∧
      ((Matcher.ofRegex .givingBack 2 3).enumeration #[0x61, 0x61, 0x61] 0).gathered =
        [⟨0, 3, [⟨0, 0, 1⟩, ⟨0, 1, 2⟩]⟩, ⟨0, 2, [⟨0, 0, 1⟩]⟩] ∧
      ((Matcher.ofRegex .takingFew 2 3).enumeration #[0x61, 0x61, 0x61] 0).gathered =
        [⟨0, 2, [⟨0, 0, 1⟩]⟩, ⟨0, 3, [⟨0, 0, 1⟩, ⟨0, 1, 2⟩]⟩] := by
  intro pattern pattern' e
  have hkinds : Lexemes.kinds pattern = [.captureOpen, .byte 0x61, .captureClose,
      .quantifier ⟨1, unboundedCount, true⟩, .byte 0x61] := by
    decide +kernel
  have hderives : Derives .alternation 0 (Lexemes.kinds pattern) e 1 := by
    rw [hkinds]
    have hloop := Derives.quantified ⟨1, unboundedCount, true⟩
      (.capture (by decide) (.last (.one (.single (.byte 1 0x61))))) rfl
    exact .last (.more (.one hloop) (.single (.byte 1 0x61)))
  have hplain : e.HasPlainLoops := ⟨⟨fun _ => rfl, trivial⟩, trivial⟩
  have hlazy : MadeLazy pattern pattern' :=
    .mark (p := [0x3c, 0x61, 0x3e, 0x2b]) (q := [0x61])
      (t := ⟨.quantifier ⟨1, unboundedCount, true⟩, 3⟩) ⟨4, by decide +kernel⟩ (by decide +kernel)
      rfl (by decide)
  have hgreed : EqualButForGreed pattern pattern' := .rel _ _ hlazy
  have hcompile : ({} : Compiler).compile pattern' (List.replicate 31 0) = .ok .takingFew :=
    compile_eq_ok (by decide +kernel)
  obtain ⟨r', h', -, hagree⟩ := greediness_reorders compile_givingBack hderives hplain hgreed
  obtain rfl : r' = .takingFew := Except.ok.inj (h'.symm.trans hcompile)
  obtain ⟨slots, steps, hroomy⟩ := hagree #[0x61, 0x61, 0x61] 0
  exact ⟨compile_givingBack, hderives, hplain, hgreed, hcompile,
    ⟨slots, steps, fun m m' hm hm' hr hr' => (hroomy m m' hm hm' hr hr').2.2.1⟩,
    by decide +kernel, by decide +kernel⟩

end BoundedRegex
