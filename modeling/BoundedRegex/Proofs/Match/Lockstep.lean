import BoundedRegex.Proofs.Match.Calls
import BoundedRegex.Proofs.Match.SafeRuns

/-!
# Runs in step

Two states that are alive in the same way, with buffers of the same sizes, make the same step,
whatever the dead slots of their buffers hold (`MachineState.Alike.step`); so their runs come to the
same and report the same (`Matcher.run_alike`).  A state may have a higher peak behind it than the
other: it is carried along and nothing looks at it.
-/

namespace BoundedRegex

/-! ### What a step takes room for -/

/-- The next configuration has no more frames than `frames`, or no more spans than `spans`. -/
def Next.Grows (frames spans : Nat) : Next → Prop
  | .going c => c.stack.length ≤ frames ∨ c.log.length ≤ spans
  | _ => True

namespace Config

variable {p : Program} {input : Array UInt8} {ip pos : Nat} {log : List Capture}
  {stack below : List Entry} {l : Loop}

theorem length_dropOpening_le (index : UInt8) (stack : List Entry) :
    (dropOpening index stack).length ≤ stack.length := by
  cases stack with
  | nil => exact Nat.le_refl _
  | cons e rest =>
    rw [dropOpening]
    split
    · exact Nat.le_succ _
    · exact Nat.le_refl _

theorem grows_closeCapture (index : UInt8) (next : Nat) :
    (closeCapture index next pos log stack).Grows stack.length log.length := by
  unfold closeCapture
  split
  · exact Or.inl (length_dropOpening_le index stack)
  · exact Or.inl (Nat.le_refl _)

theorem grows_runByteLoop (body : Instr) :
    (runByteLoop input ip pos log stack l body).Grows stack.length log.length := by
  unfold runByteLoop
  extract_lets
  split
  · exact Or.inl (Nat.le_refl _)
  · split <;> exact Or.inr (Nat.le_refl _)

theorem grows_enterLoop : (enterLoop p input ip pos log stack l).Grows stack.length log.length := by
  unfold enterLoop
  extract_lets
  split
  · exact Or.inr (Nat.le_refl _)
  · split
    · split <;> exact Or.inr (Nat.le_refl _)
    · split
      · exact grows_runByteLoop _
      · trivial

theorem grows_endIteration (ip : Nat) :
    (endIteration p input pos log stack ip).Grows stack.length log.length := by
  unfold endIteration keepIteration commitIteration
  split
  · split
    · split
      · extract_lets
        split <;> exact Or.inr (Nat.le_refl _)
      · exact Or.inr (Nat.le_refl _)
    · exact Or.inl (Nat.le_refl _)
    · trivial
  · exact Or.inl (Nat.le_refl _)

theorem grows_execute : (execute p input ip pos log stack).Grows stack.length log.length := by
  unfold execute
  cases p.fetch? ip with
  | none => trivial
  | some x =>
    obtain ⟨i, n⟩ := x
    cases i with
    | accept => trivial
    | inputStart | inputEnd =>
      dsimp only
      split <;> exact Or.inl (Nat.le_refl _)
    | split | captureStart => exact Or.inr (Nat.le_refl _)
    | jump => exact Or.inl (Nat.le_refl _)
    | captureEnd index => exact grows_closeCapture index _
    | loop l => exact grows_enterLoop
    | loopEnd offset => exact grows_endIteration _
    | anyByte | byte | bitmap | ranges =>
      dsimp only
      split
      · split <;> exact Or.inl (Nat.le_refl _)
      · exact Or.inl (Nat.le_refl _)

theorem grows_retryBoundary (f : LoopEntry) (spans : Nat) :
    (retryBoundary below l f).Grows (below.length + 1) spans := by
  unfold retryBoundary
  split
  · exact Or.inl (Nat.le_succ _)
  · exact Or.inl (Nat.le_refl _)

theorem grows_retryByteLoop (f : LoopEntry) (spans : Nat) :
    (retryByteLoop p input below l f).Grows (below.length + 1) spans := by
  unfold retryByteLoop
  extract_lets
  split
  · refine Or.inl ?_
    dsimp only [stack]
    split
    · exact Nat.le_succ _
    · exact Nat.le_refl _
  · split
    · trivial
    · split
      · split
        · exact Or.inl (Nat.le_refl _)
        · exact Or.inl (Nat.le_succ _)
      · exact Or.inl (Nat.le_succ _)

theorem grows_retryLoop (f : LoopEntry) (spans : Nat) :
    (retryLoop input below l f).Grows (below.length + 1) spans := by
  have hdrop : (Next.fail below).Grows (below.length + 1) spans := Or.inl (Nat.le_succ _)
  have hput (ip pos : Nat) (log : List Capture) (g : LoopEntry) :
      (Next.run ip pos log (.loop g :: below)).Grows (below.length + 1) spans :=
    Or.inl (Nat.le_refl _)
  unfold retryLoop
  extract_lets
  split
  · split
    · exact hput ..
    · exact hdrop
  · split
    · split
      · split <;> exact hput ..
      · exact hdrop
    · split
      · exact hput ..
      · exact hdrop
  · exact hdrop

/-- Taking back a frame takes room for no other. -/
theorem grows_backtrack (spans : Nat) :
    (backtrack p input stack).Grows stack.length spans := by
  cases stack with
  | nil => trivial
  | cons e below =>
    have hdrop : (Next.fail below).Grows (below.length + 1) spans := Or.inl (Nat.le_succ _)
    cases e with
    | alternative | capture => exact Or.inl (Nat.le_succ _)
    | loop f =>
      unfold backtrack
      dsimp only
      split
      · exact hdrop
      · split
        · trivial
        · split
          · exact grows_retryBoundary f spans
          · split
            · exact grows_retryByteLoop f spans
            · exact grows_retryLoop f spans
        · exact hdrop

/-- **No step takes room for a frame and for a span.** -/
theorem grows_step (p : Program) (input : Array UInt8) (c : Config) :
    (c.step p input).Grows c.stack.length c.log.length := by
  cases c with
  | running => exact grows_execute
  | failing => exact grows_backtrack 0

end Config

/-! ### Steps -/

namespace MachineState

/-- Two states with the same alive in them, and with buffers of the same sizes; the first has a peak
of `k` behind it. -/
structure Alike (p : Program) (k : Nat) (s t : MachineState) : Prop where
  sane : s.Sane p
  sane' : t.Sane p
  config : s.config = t.config
  frames : s.frames.size = t.frames.size
  captures : s.captures.size = t.captures.size
  peak : s.peak = Nat.max k t.peak

variable {p : Program} {k : Nat} {s t : MachineState}

theorem alike_initial (pos : Nat) {frames frames' : Array Frame}
    {captures captures' : Array Capture} {peak peak' : Nat} (hframes : frames.size = frames'.size)
    (hcaptures : captures.size = captures'.size) (hpeak : peak = Nat.max k peak') :
    (initial pos frames captures peak).Alike p k (initial pos frames' captures' peak') where
  sane := sane_initial ..
  sane' := sane_initial ..
  config := by rw [config_initial, config_initial]
  frames := hframes
  captures := hcaptures
  peak := hpeak

namespace Alike

theorem sp_eq (h : s.Alike p k t) : s.sp = t.sp := by
  rw [← s.length_stack_config, h.config, t.length_stack_config]

theorem backtracking (h : s.Alike p k t) :
    Alike p k { s with mode := .backtracking } { t with mode := .backtracking } where
  sane := h.sane.backtracking
  sane' := h.sane'.backtracking
  config := by
    show Config.failing s.stack = .failing t.stack
    rw [← s.stack_config, h.config, t.stack_config]
  frames := h.frames
  captures := h.captures
  peak := h.peak

end Alike

end MachineState

/-- Two steps that come to the same, in states that are alike. -/
inductive StepResult.Alike (p : Program) (k : Nat) : StepResult → StepResult → Prop where
  | running {s t : MachineState} (h : s.Alike p k t) : Alike p k (.running s) (.running t)
  | accepted {s t : MachineState} (h : s.Alike p k t)
      (hmatch : ∀ start, s.toMatch start = t.toMatch start) : Alike p k (.accepted s) (.accepted t)
  | exhausted {s t : MachineState} (h : s.Alike p k t) : Alike p k (.exhausted s) (.exhausted t)
  | overflowed {s t : MachineState} (e : MatchError) (h : s.Alike p k t) :
      Alike p k (.overflowed e s) (.overflowed e t)
  | malformed {s t : MachineState} (h : s.Alike p k t) : Alike p k (.malformed s) (.malformed t)

namespace MachineState

variable {p : Program} {k : Nat} {s t u : MachineState} {c : Config}

/-- A step that is made does not take a frame more than there are. -/
theorem Sane.length_stack_le (hu : u.Sane p) (hc : u.config = c) :
    c.stack.length ≤ u.frames.size := by
  rw [← hc, u.length_stack_config]
  exact hu.sp_le

/-- A step that is made does not take a span more than there is room for. -/
theorem Sane.length_log_le (hu : u.Sane p) (hc : u.config = c) :
    c.log.length ≤ u.captures.size :=
  hc ▸ length_log_config_le hu

/-- No step takes a frame too many and a span too many. -/
theorem Sane.not_both (hs : s.Sane p) {input : Array UInt8}
    (hc : s.config.step p input = .going c) (hstack : c.stack.length = s.sp + 1)
    (hlog : c.log.length = s.captures.size + 1) : False := by
  have hgrows := s.config.grows_step p input
  rw [hc] at hgrows
  have hsp := s.length_stack_config
  have hle := hs.length_log_le rfl
  rcases hgrows with hgrows | hgrows
  · omega
  · omega

/-- **States that are alike step alike**, whatever is dead in their buffers. -/
theorem Alike.step (h : s.Alike p k t) (input : Array UInt8) :
    (Machine.step p input s).Alike p k (Machine.step p input t) := by
  have hsp := h.sp_eq
  have hframes := h.frames
  have hcaptures := h.captures
  have hs := refines_step h.sane input
  have ht := refines_step h.sane' input
  rw [← h.config] at ht
  generalize hnext : s.config.step p input = next at hs ht
  generalize Machine.step p input s = left at hs ⊢
  generalize Machine.step p input t = right at ht ⊢
  cases hs with
  | @running u c hu hc hf hk hp =>
    cases ht with
    | @running v _ hv hc' hf' hk' hp' =>
      have huv : u.config = v.config := hc.trans hc'.symm
      have husp : u.sp = v.sp := by
        rw [← u.length_stack_config, huv, v.length_stack_config]
      refine .running ⟨hu, hv, huv, ?_, ?_, ?_⟩
      · rw [hf, hf', hframes]
      · rw [hk, hk', hcaptures]
      · rw [hp, hp', h.peak, husp]
        exact Nat.max_assoc ..
    | scratch hfull hlength =>
      have hle := hu.length_stack_le hc
      omega
    | log hfull hlength =>
      have hle := hu.length_log_le hc
      omega
  | accepted =>
    generalize haccepted : Next.accepted _ _ _ = next at ht
    cases ht with
    | accepted =>
      injection haccepted with hpos hspans _
      refine .accepted h fun start => ?_
      rw [s.toMatch_eq, t.toMatch_eq, hpos, hspans]
    | _ => cases haccepted
  | exhausted =>
    cases ht with
    | exhausted => exact .exhausted h
  | malformed =>
    cases ht with
    | malformed => exact .malformed h
  | scratch hfull hlength =>
    cases ht with
    | running hv hc' hf' =>
      have hle := hv.length_stack_le hc'
      omega
    | scratch =>
      rw [hframes]
      exact .overflowed _ h
    | log hfull' hlength' => exact (h.sane.not_both hnext hlength (by omega)).elim
  | log hfull hlength =>
    cases ht with
    | running hv hc' _ hk' =>
      have hle := hv.length_log_le hc'
      omega
    | scratch _ hlength' => exact (h.sane.not_both hnext (by omega) (by omega)).elim
    | log =>
      rw [hcaptures]
      exact .overflowed _ h

end MachineState

/-! ### Runs -/

namespace Matcher

variable (p : Program) (input : Array UInt8) (start limit : Nat) {σ : Type} (f : Callback σ)
  {k : Nat} {s t : MachineState}

/-- **Runs from states that are alike** report the same, come to the same and end in states that are
alike. -/
theorem run_alike (h : s.Alike p k t) (n : Nat) (gathered : σ) :
    (run p input start limit f n gathered s).1 = (run p input start limit f n gathered t).1 ∧
      (run p input start limit f n gathered s).2.1 =
        (run p input start limit f n gathered t).2.1 ∧
      (run p input start limit f n gathered s).2.2.Alike p k
        (run p input start limit f n gathered t).2.2 := by
  induction n generalizing gathered s t with
  | zero => exact ⟨rfl, rfl, h⟩
  | succ n ih =>
    have hstep := h.step input
    rw [run, run]
    generalize Machine.step p input s = left at hstep ⊢
    generalize Machine.step p input t = right at hstep ⊢
    cases hstep with
    | running h' => exact ih h' gathered
    | @accepted s t h' hmatch =>
      dsimp only
      rw [hmatch start]
      generalize f gathered (t.toMatch start) = answer
      obtain ⟨gathered', action⟩ := answer
      cases action with
      | goOn => exact ih h'.backtracking gathered'
      | stop => exact ⟨rfl, rfl, h'⟩
    | exhausted h' | overflowed _ h' | malformed h' => exact ⟨rfl, rfl, h'⟩

/-- A run leaves the buffers as long as they are. -/
theorem size_run (hs : s.Sane p) (n : Nat) (gathered : σ) :
    (run p input start limit f n gathered s).2.2.frames.size = s.frames.size ∧
      (run p input start limit f n gathered s).2.2.captures.size = s.captures.size := by
  induction n generalizing gathered s with
  | zero => exact ⟨rfl, rfl⟩
  | succ n ih =>
    have href := refines_step hs input
    generalize s.config.step p input = next at href
    rw [run]
    generalize Machine.step p input s = result at href ⊢
    cases href with
    | running hu _ hf hk =>
      obtain ⟨hframes, hcaptures⟩ := ih hu gathered
      exact ⟨hframes.trans hf, hcaptures.trans hk⟩
    | accepted =>
      dsimp only
      generalize f gathered (s.toMatch start) = answer
      obtain ⟨gathered', action⟩ := answer
      cases action with
      | goOn => exact ih hs.backtracking gathered'
      | stop => exact ⟨rfl, rfl⟩
    | exhausted | malformed | scratch | log => exact ⟨rfl, rfl⟩

end Matcher

end BoundedRegex
