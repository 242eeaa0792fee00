import BoundedRegex.Proofs.Compile.LoopBound
import BoundedRegex.Proofs.Isolated
import BoundedRegex.Proofs.Match.Regular
import BoundedRegex.Proofs.Match.SafeRuns
import BoundedRegex.Proofs.Stored

/-!
# Captures outside loops

The header of a compiled pattern marks the captures that are inside loops.  Every other capture has
one record at most in the log, in whatever state an attempt is, and so a pattern in which none is
marked needs no more slots for captures than `fixedCaptureSlots` says
(`Compiler.fixed_captures_once`).

`MachineState.Regular` is what each state of such an attempt keeps to: what may be resumed is
regular, and so is the log, also while the machine is backtracking and the log is dead.
-/

namespace BoundedRegex

/-! ### Regular states -/

/-- What every state of an attempt with so many slots for captures keeps to, where the code of an
expression is run. -/
structure MachineState.Regular (p : Program) (slots : Nat) (s : MachineState) : Prop where
  sane : s.Sane p
  size : s.captures.size = slots
  config : s.config.Regular p
  log : ∃ a, p.Recorded a (spans s.captures s.log)

/-- What comes of a step is regular.  Where the slots for captures run out, some log is longer. -/
def StepResult.Regular (p : Program) (slots : Nat) : StepResult → Prop
  | running s => s.Regular p slots
  | accepted s => ({ s with mode := .backtracking } : MachineState).Regular p slots
  | overflowed (.captureBufferExhausted _) _ => ∃ a log, p.Recorded a log ∧ slots < log.length
  | overflowed _ _ | exhausted _ | malformed _ => True

namespace MachineState

variable {p : Program} {input : Array UInt8} {start slots : Nat} {s t : MachineState}

theorem regular_initial (hzero : p.Starts 0) (start : Nat) (frames : Array Frame)
    (captures : Array Capture) (peak : Nat) :
    (initial start frames captures peak).Regular p captures.size where
  sane := sane_initial p start frames captures peak
  size := rfl
  config := by
    rw [config_initial]
    exact ⟨⟨hzero, .nil p 0, fun _ _ hc => absurd hc.lt (Nat.not_lt_zero _)⟩, trivial⟩
  log := ⟨0, .nil p 0⟩

namespace Regular

/-- **A step of a regular state is regular.** -/
theorem step (h : s.Regular p slots) (hp : p.Sound) (hs : p.Structured) (input : Array UInt8) :
    (Machine.step p input s).Regular p slots := by
  have href := refines_step h.sane input
  have hnext : (s.config.step p input).Regular p := Config.regular_step hp hs h.config
  generalize s.config.step p input = next at href hnext
  generalize Machine.step p input s = result at href ⊢
  cases href with
  | @running u c hu hc _ hsize _ hback =>
    refine ⟨hu, hsize.trans h.size, hc ▸ hnext, ?_⟩
    cases hmode : u.mode with
    | executing =>
      rw [← hc, config_of_executing hmode] at hnext
      exact ⟨u.ip, hnext.1.recorded⟩
    | backtracking =>
      obtain ⟨-, hlog, hcaptures⟩ := hback hmode
      rw [hlog, hcaptures]
      exact h.log
  | accepted => exact ⟨h.sane.backtracking, h.size, hnext, h.log⟩
  | exhausted | malformed | scratch => trivial
  | @log c hfull hlength =>
    cases c with
    | failing => cases hlength
    | running ip pos log stack =>
      refine ⟨ip, log, hnext.1.recorded, ?_⟩
      rw [← h.size, ← hfull]
      exact Nat.lt_of_lt_of_eq (Nat.lt_succ_self _) hlength.symm

/-- All that an attempt reaches is regular. -/
theorem of_reaches (h : s.Regular p slots) (hp : p.Sound) (hs : p.Structured)
    (ht : Machine.Reaches p input s t) : t.Regular p slots := by
  induction ht with
  | refl => exact h
  | step _ hstep ih =>
    have hnext := ih.step hp hs input
    rw [hstep] at hnext
    exact hnext
  | resume _ hstep ih =>
    have hnext := ih.step hp hs input
    rw [hstep] at hnext
    exact hnext

/-- Where a run ends for want of slots, there is a log that is longer than they are many. -/
theorem exists_log_of_run (h : s.Regular p slots) (hp : p.Sound) (hs : p.Structured) {σ : Type}
    {f : Callback σ} {limit steps capacity : Nat} {gathered : σ}
    (hrun : (Matcher.run p input start limit f steps gathered s).1 =
      .error (.captureBufferExhausted capacity)) :
    ∃ a log, p.Recorded a log ∧ slots < log.length := by
  induction steps generalizing s gathered with
  | zero => cases hrun
  | succ steps ih =>
    have hstep := h.step hp hs input
    rw [Matcher.run] at hrun
    generalize Machine.step p input s = result at hstep hrun
    cases result with
    | running u => exact ih hstep hrun
    | accepted u =>
      dsimp only at hrun
      generalize f gathered (u.toMatch start) = answer at hrun
      obtain ⟨gathered', action⟩ := answer
      cases action with
      | goOn => exact ih hstep hrun
      | stop => cases hrun
    | overflowed e u =>
      cases hrun
      exact hstep
    | exhausted | malformed => cases hrun

end Regular

end MachineState

/-! ### The code of an expression -/

namespace Expr

variable {p : Program} {e : Expr} {log : List Capture} {a : Nat}

/-- Where no capture is inside a loop, no log is longer than the captures are many. -/
theorem length_le_of_recorded (hcode : p.code = e.code ++ Instr.accept.encode)
    (hlen : p.code.length ≤ maxCodeLength) (hloops : e.loopIndices = [])
    (h : p.Recorded a log) : log.length ≤ e.indices.length := by
  have hnodup : (log.map (·.index)).Nodup := by
    refine List.nodup_iff_count_le_one.2 fun index => ?_
    have hfixed : p.Fixed index := fixed_of_not_mem hcode hlen (hloops ▸ List.not_mem_nil)
    rw [List.count_eq_countP, List.countP_map]
    exact h.once hfixed
  have hsubset : log.map (·.index) ⊆ e.indices := by
    intro index hindex
    obtain ⟨c, hc, rfl⟩ := List.mem_map.1 hindex
    obtain ⟨x, hx⟩ := h.closes c hc
    exact mem_indices_of_closes hcode hlen hx
  rw [← List.length_map (·.index)]
  exact (List.subperm_of_subset hnodup hsubset).length_le

end Expr

/-! ### Compiled patterns -/

namespace Compiler

variable {c : Compiler} {pattern buffer : List UInt8} {r : Regex} {e : Expr} {n : Nat}

/-- The code of a pattern that compiles is structured. -/
theorem structured_of_compile (h : c.compile pattern buffer = .ok r)
    (hderives : Derives .alternation 0 (Lexemes.kinds pattern) e n)
    (hcode : r.code = e.code ++ Instr.accept.encode) : (Program.ofCode r.code).Structured :=
  Expr.structured_code (p := .ofCode r.code) hcode r.code_le hderives.nodup_indices
    (admissible_of_compile h)

/-- What is not marked is in no loop of the expression. -/
theorem not_mem_loopIndices (h : c.compile pattern buffer = .ok r)
    (hderives : Derives .alternation 0 (Lexemes.kinds pattern) e n) {index : UInt8}
    (hindex : r.captureInLoop index.toNat = false) : index ∉ e.loopIndices := by
  intro hmem
  have hmarked := (captureInLoop_iff h hderives index.toNat).2 (List.mem_map_of_mem hmem)
  rw [hindex] at hmarked
  cases hmarked

/-- Where nothing is marked, there is a slot for each capture of the expression. -/
theorem fixedCaptureSlots_eq (hderives : Derives .alternation 0 (Lexemes.kinds pattern) e n)
    (hcaptures : r.captures = .ofNat n) (hnone : ∀ i, r.captureInLoop i = false) :
    r.fixedCaptureSlots = e.indices.length := by
  have hloops : r.loopCaptures = [] :=
    List.filter_eq_nil_iff.2 fun i _ => by rw [hnone i]; exact Bool.false_ne_true
  have hlength : e.indices.length = n := by
    rw [← List.length_map UInt8.toNat, hderives.map_toNat_indices, List.length_range',
      Nat.sub_zero]
  rw [Regex.fixedCaptureSlots, hloops, hcaptures, hlength]
  exact UInt8.toNat_ofNat_of_lt' (Nat.lt_succ_of_le (hderives.le_255 (Nat.zero_le _)))

/-- **Captures outside loops are recorded once.**  In every state through which an attempt may pass,
at any offset of any input and with any buffers, the log has one record at most of each capture that
is not marked.  If none is marked, then no call runs out of slots for captures of which there are as
many as `fixedCaptureSlots` says, whatever the callback does and however many frames there are. -/
theorem fixed_captures_once (h : c.compile pattern buffer = .ok r) :
    (∀ (input : Array UInt8) (start : Nat) (frames : Array Frame) (captures : Array Capture)
        (peak : Nat) (s : MachineState),
      Machine.Reaches (.ofCode r.code) input (.initial start frames captures peak) s →
      ∀ index : UInt8, r.captureInLoop index.toNat = false →
        (spans s.captures s.log).countP (fun c => c.index = index) ≤ 1) ∧
    ((∀ i, r.captureInLoop i = false) → ∀ m : Matcher, m.program = .ofCode r.code →
      r.fixedCaptureSlots ≤ m.captures.size → ∀ (input : Array UInt8) (start capacity : Nat),
        (∀ {σ : Type} (f : Callback σ) (gathered : σ),
          (m.tryMatch input start f gathered).outcome ≠
            .error (.captureBufferExhausted capacity)) ∧
        (m.matchAt input start).1 ≠ .error (.captureBufferExhausted capacity) ∧
        (m.findAt input start).1 ≠ .error (.captureBufferExhausted capacity)) := by
  obtain ⟨e, n, hderives, -, hcode, -, hcaptures⟩ := c.compile_derives h
  have hp : (Program.ofCode r.code).Sound := (admissible_of_compile h).sound r.code_le
  have hs := structured_of_compile h hderives hcode
  have hzero := (Expr.laidOut_of_code (p := .ofCode r.code) hcode r.code_le).2.2.2
  constructor
  · intro input start frames captures peak s hreaches index hindex
    have hinitial := MachineState.regular_initial hzero start frames captures peak
    obtain ⟨a, hrecorded⟩ := (hinitial.of_reaches hp hs hreaches).log
    exact hrecorded.once
      (Expr.fixed_of_not_mem hcode r.code_le (not_mem_loopIndices h hderives hindex))
  · intro hnone m hm hslots input start capacity
    rw [fixedCaptureSlots_eq hderives hcaptures hnone] at hslots
    have hloops : e.loopIndices = [] :=
      List.eq_nil_iff_forall_not_mem.2 fun _ => not_mem_loopIndices h hderives (hnone _)
    have htry {m' : Matcher} (hm' : m'.program = .ofCode r.code)
        (hslots' : e.indices.length ≤ m'.captures.size) (start : Nat) {σ : Type} (f : Callback σ)
        (gathered : σ) : (m'.tryMatch input start f gathered).outcome ≠
          .error (.captureBufferExhausted capacity) := by
      intro hexhausted
      by_cases hstart : start ≤ input.size
      · rw [Matcher.tryMatch_eq m' hstart, hm'] at hexhausted
        have hinitial := MachineState.regular_initial hzero start m'.frames m'.captures m'.peak
        obtain ⟨a, log, hlog, hlt⟩ := hinitial.exists_log_of_run hp hs hexhausted
        have hle := Expr.length_le_of_recorded hcode r.code_le hloops hlog
        omega
      · rw [Matcher.tryMatch, if_neg hstart] at hexhausted
        cases hexhausted
    refine ⟨htry hm hslots start, htry hm hslots start Matcher.firstOnly (), fun hfind => ?_⟩
    obtain ⟨m', offset, hlike, hmatch⟩ := Matcher.exists_matchAt_of_findAt hfind (by simp)
    exact htry (hlike.program.trans hm) (hlike.captures ▸ hslots) offset Matcher.firstOnly () hmatch

end Compiler

/-- The pattern `<<a>?b>{1}`, compiled: a loop that keeps frames, around one that does not. -/
def Regex.iteratedOnce : Regex :=
  { code := [
      0xAA, 0x08, 5, 1, 1, 29, 0, -- 0: the outer loop
      0xAA, 0x0A, 0, -- 7: capture 0 starts
      0xAA, 0x08, 1, 0, 1, 11, 0, -- 10: the inner loop
      0xAA, 0x0A, 1, 0x61, 0xAA, 0x0B, 1, -- 17: capture 1, around 'a'
      0xAA, 0x09, 0xF2, 0xFF, -- 24: the end of an iteration of the inner loop
      0x62, 0xAA, 0x0B, 0, -- 28: 'b'; capture 0 ends
      0xAA, 0x09, 0xE0, 0xFF, -- 32: the end of an iteration of the outer loop
      0xAA, 0x00] -- 36: accepts
    scratchDepth := 4
    captures := 2
    loopBound := 0
    code_le := by decide
    loopBound_lt := by decide }

theorem Compiler.compile_iteratedOnce :
    ({} : Compiler).compile [0x3c, 0x3c, 0x61, 0x3e, 0x3f, 0x62, 0x3e, 0x7b, 0x31, 0x7d]
      (List.replicate 48 0) = .ok .iteratedOnce :=
  compile_eq_ok (by decide +kernel)

/-- No loop of `<<a>?b>{1}` iterates twice, so there is one record at most of each capture, and two
slots are enough.  On `ab` both captures are recorded in the end. -/
theorem Compiler.fixed_captures_once_iteratedOnce :
    ({} : Compiler).compile [0x3c, 0x3c, 0x61, 0x3e, 0x3f, 0x62, 0x3e, 0x7b, 0x31, 0x7d]
        (List.replicate 48 0) = .ok .iteratedOnce ∧
      (∀ i, Regex.iteratedOnce.captureInLoop i = false) ∧
      (∃ s, Machine.Reaches (.ofCode Regex.iteratedOnce.code) #[0x61, 0x62]
          (.initial 0 (Array.replicate 4 .blank) (Array.replicate 2 .blank) 0) s ∧
        spans s.captures s.log = [⟨1, 0, 1⟩, ⟨0, 0, 2⟩] ∧
        (spans s.captures s.log).countP (fun c => c.index = 1) ≤ 1) ∧
      Regex.iteratedOnce.fixedCaptureSlots = 2 ∧
      ∀ capacity, ((Matcher.ofRegex .iteratedOnce 4 2).findAt #[0x62, 0x61, 0x62] 0).1 ≠
        .error (.captureBufferExhausted capacity) := by
  have hnone : ∀ i, Regex.iteratedOnce.captureInLoop i = false := fun i => by
    rw [Regex.captureInLoop, show Regex.iteratedOnce.loopBound = 0 from rfl, Nat.zero_testBit,
      Bool.and_false]
  have hslots : Regex.iteratedOnce.fixedCaptureSlots = 2 := by decide +kernel
  have htrace : (Matcher.trace (.ofCode Regex.iteratedOnce.code) #[0x61, 0x62] 0 Matcher.firstOnly
      10 () (.initial 0 (Array.replicate 4 .blank) (Array.replicate 2 .blank) 0)).map
        (fun t => spans t.2.captures t.2.log) = some [⟨1, 0, 1⟩, ⟨0, 0, 2⟩] := by
    decide +kernel
  obtain ⟨⟨_, s⟩, hs, hspans⟩ := Option.map_eq_some_iff.1 htrace
  obtain ⟨honce, henough⟩ := Compiler.fixed_captures_once Compiler.compile_iteratedOnce
  refine ⟨Compiler.compile_iteratedOnce, hnone, ⟨s, Matcher.reaches_of_trace hs, hspans, ?_⟩,
    hslots, fun capacity => ?_⟩
  · exact honce #[0x61, 0x62] 0 _ _ 0 s (Matcher.reaches_of_trace hs) 1 (hnone 1)
  · exact (henough hnone (.ofRegex .iteratedOnce 4 2) rfl (Nat.le_of_eq hslots)
      #[0x62, 0x61, 0x62] 0 capacity).2.2

end BoundedRegex
