import BoundedRegex.Proofs.CaptureSlots
import BoundedRegex.Proofs.Match.Lockstep

/-!
# Buffers of other sizes

The machine does not ask how long its buffers are, except where it needs one slot more than there
are.  So a run that ends well is the same run in other buffers, as long as they have room for what
was alive in it; and the peak is the number of frames that it takes, not one more.

* `MachineState.Roomier` — two states with the same alive in them, of which the second has no less
  room for spans.
* `MachineState.Roomier.step` — they make the same step, unless the second has no frame left for it;
  then the first has a peak that the second has no room for.
* `Matcher.run_roomier` — runs in step, up to the step that the second has no room for.
* `Matcher.tryMatch_resized` — an attempt in other buffers.
-/

namespace BoundedRegex

namespace MachineState

/-- `t` has the same alive in it as `s`, the same peak behind it and no less room for spans; its
frames have had room for the peak. -/
structure Roomier (p : Program) (s t : MachineState) : Prop where
  sane : s.Sane p
  sane' : t.Sane p
  config : s.config = t.config
  captures : s.captures.size ≤ t.captures.size
  peak : s.peak = t.peak
  peak_le : t.peak ≤ t.frames.size

variable {p : Program} {s t : MachineState}

theorem roomier_initial (pos : Nat) {frames frames' : Array Frame}
    {captures captures' : Array Capture} (hcaptures : captures.size ≤ captures'.size) :
    (initial pos frames captures 0).Roomier p (initial pos frames' captures' 0) where
  sane := sane_initial ..
  sane' := sane_initial ..
  config := by rw [config_initial, config_initial]
  captures := hcaptures
  peak := rfl
  peak_le := Nat.zero_le _

namespace Roomier

theorem backtracking (h : s.Roomier p t) :
    Roomier p { s with mode := .backtracking } { t with mode := .backtracking } where
  sane := h.sane.backtracking
  sane' := h.sane'.backtracking
  config := by
    show Config.failing s.stack = .failing t.stack
    rw [← s.stack_config, h.config, t.stack_config]
  captures := h.captures
  peak := h.peak
  peak_le := h.peak_le

end Roomier

end MachineState

/-- What two steps come to, of which the second is made in other buffers: the same, unless the first
has no room, or the second has too few frames for the peak that the first has now. -/
inductive StepResult.Roomier (p : Program) (t : MachineState) :
    StepResult → StepResult → Prop where
  | running {s' t' : MachineState} (h : s'.Roomier p t')
      (hframes : t'.frames.size = t.frames.size) : Roomier p t (.running s') (.running t')
  | accepted {s : MachineState} (h : s.Roomier p t)
      (hmatch : ∀ start, s.toMatch start = t.toMatch start) :
      Roomier p t (.accepted s) (.accepted t)
  | exhausted {s : MachineState} (h : s.Roomier p t) : Roomier p t (.exhausted s) (.exhausted t)
  | malformed {s : MachineState} (h : s.Roomier p t) : Roomier p t (.malformed s) (.malformed t)
  | overflowed (e : MatchError) (s : MachineState) (result : StepResult) :
      Roomier p t (.overflowed e s) result
  | starved {s' : MachineState} (hs : s'.Sane p) (hpeak : t.frames.size < s'.peak) :
      Roomier p t (.running s') (.overflowed (.scratchExhausted t.frames.size) t)

namespace MachineState.Roomier

variable {p : Program} {s t : MachineState}

/-- **A step in other buffers** is the same step, unless it takes a frame that is not there. -/
theorem step (h : s.Roomier p t) (input : Array UInt8) :
    (Machine.step p input s).Roomier p t (Machine.step p input t) := by
  have hcaptures := h.captures
  have hs := refines_step h.sane input
  have ht := refines_step h.sane' input
  rw [← h.config] at ht
  generalize s.config.step p input = next at hs ht
  generalize Machine.step p input s = left at hs ⊢
  generalize Machine.step p input t = right at ht ⊢
  cases hs with
  | @running u c hu hc hf hk hp =>
    have hlength : c.stack.length = u.sp := by rw [← hc, u.length_stack_config]
    cases ht with
    | @running v _ hv hc' hf' hk' hp' =>
      have hpeak : u.peak = v.peak := by
        rw [hp, hp', h.peak, ← v.length_stack_config, hc', hlength]
      refine .running ⟨hu, hv, hc.trans hc'.symm, ?_, hpeak, ?_⟩ hf'
      · rw [hk, hk']
        exact hcaptures
      · rw [hp', hf']
        exact Nat.max_le.2 ⟨h.peak_le, Nat.le_trans hv.sp_le (Nat.le_of_eq hf')⟩
    | scratch hfull hmore =>
      refine .starved hu (Nat.lt_of_lt_of_le ?_ hu.sp_le_peak)
      rw [← hlength, hmore, hfull]
      exact Nat.lt_succ_self _
    | log hfull hmore =>
      have hle := hu.length_log_le hc
      omega
  | accepted =>
    generalize haccepted : Next.accepted _ _ _ = next at ht
    cases ht with
    | accepted =>
      injection haccepted with hpos hspans _
      refine .accepted h fun start => ?_
      rw [s.toMatch_eq, t.toMatch_eq, hpos, hspans]
    | _ => cases haccepted
  | exhausted =>
    cases ht with
    | exhausted => exact .exhausted h
  | malformed =>
    cases ht with
    | malformed => exact .malformed h
  | scratch | log => exact .overflowed _ _ _

end MachineState.Roomier

/-! ### Runs -/

namespace Matcher

variable {p : Program} {input : Array UInt8} {start : Nat} {σ : Type} {f : Callback σ}
  {s t : MachineState}

variable (p input start f) in
/-- The peak of a run is no lower in its end. -/
theorem le_peak_run (hs : s.Sane p) (limit n : Nat) (gathered : σ) :
    s.peak ≤ (run p input start limit f n gathered s).2.2.peak := by
  induction n generalizing gathered s with
  | zero => exact Nat.le_refl _
  | succ n ih =>
    have href := refines_step hs input
    generalize s.config.step p input = next at href
    rw [run]
    generalize Machine.step p input s = result at href ⊢
    cases href with
    | running hu _ _ _ hp =>
      refine Nat.le_trans ?_ (ih hu gathered)
      rw [hp]
      exact Nat.le_max_left ..
    | accepted =>
      dsimp only
      generalize f gathered (s.toMatch start) = answer
      obtain ⟨gathered', action⟩ := answer
      cases action with
      | goOn => exact ih hs.backtracking gathered'
      | stop => exact Nat.le_refl _
    | exhausted | malformed | scratch | log => exact Nat.le_refl _

/-- **A run that ends well, in other buffers**: the same run if they have room for its peak, and
otherwise it ends where it runs out of frames, having reported some of the matches. -/
theorem run_roomier (h : s.Roomier p t) (limit limit' : Nat) {n n' : Nat} (hn : n ≤ n')
    {seen : List Match} {gathered : σ} {found : Option Match}
    (hfound : (run p input start limit (noting f) n (seen, gathered) s).1 = .ok found) :
    ((run p input start limit (noting f) n (seen, gathered) s).2.2.peak ≤ t.frames.size →
      (run p input start limit' (noting f) n' (seen, gathered) t).1 = .ok found ∧
        (run p input start limit' (noting f) n' (seen, gathered) t).2.1 =
          (run p input start limit (noting f) n (seen, gathered) s).2.1 ∧
        (run p input start limit' (noting f) n' (seen, gathered) t).2.2.peak =
          (run p input start limit (noting f) n (seen, gathered) s).2.2.peak) ∧
    (t.frames.size < (run p input start limit (noting f) n (seen, gathered) s).2.2.peak →
      (run p input start limit' (noting f) n' (seen, gathered) t).1 =
          .error (.scratchExhausted t.frames.size) ∧
        (run p input start limit' (noting f) n' (seen, gathered) t).2.1.1 <+:
          (run p input start limit (noting f) n (seen, gathered) s).2.1.1) := by
  induction n generalizing n' seen gathered s t with
  | zero => cases hfound
  | succ n ih =>
    obtain ⟨n', rfl⟩ : ∃ k, n' = k + 1 := ⟨n' - 1, by omega⟩
    have hle : n ≤ n' := Nat.le_of_succ_le_succ hn
    -- Where the two runs stop together, the frames have had room for the peak.
    have hstop {s : MachineState} (h : s.Roomier p t) : ¬t.frames.size < s.peak := by
      rw [h.peak]
      exact Nat.not_lt.2 h.peak_le
    have hstep := h.step input
    simp only [run] at hfound ⊢
    generalize Machine.step p input s = left at hstep hfound ⊢
    generalize Machine.step p input t = right at hstep ⊢
    cases hstep with
    | running h' hframes =>
      rw [← hframes]
      exact ih h' hle hfound
    | @accepted s h' hmatch =>
      dsimp only [noting] at hfound ⊢
      rw [← hmatch start]
      generalize f gathered (s.toMatch start) = answer at hfound ⊢
      obtain ⟨gathered', action⟩ := answer
      cases action with
      | goOn => exact ih h'.backtracking hle hfound
      | stop => exact ⟨fun _ => ⟨hfound, rfl, h'.peak.symm⟩, fun hlt => absurd hlt (hstop h')⟩
    | exhausted h' | malformed h' =>
      exact ⟨fun _ => ⟨hfound, rfl, h'.peak.symm⟩, fun hlt => absurd hlt (hstop h')⟩
    | overflowed => cases hfound
    | starved hs hpeak =>
      have hmore := Nat.lt_of_lt_of_le hpeak
        (le_peak_run p input start (noting f) hs limit n (seen, gathered))
      exact ⟨fun hle => absurd hmore (Nat.not_lt.2 hle), fun _ => ⟨rfl, prefix_run_noting ..⟩⟩

/-! ### Attempts -/

/-- **An attempt in buffers of other sizes.**  Suppose that an attempt of a fresh matcher ends
without an error.  On another fresh matcher for the same program, with no fewer slots for captures,
it calls back with the same matches in the same order, gives the same result and has the same peak,
if there are as many frames as that peak.  With fewer it runs out of frames, and has reported the
first of those matches.  So the peak is the number of frames that the attempt takes.

The program may be any, and so may what is in the buffers; nor does it matter how many frames the
second matcher has beyond the peak, or whether that is fewer than the first has. -/
theorem tryMatch_resized {m m' : Matcher} (hprogram : m'.program = m.program) (hm : m.peak = 0)
    (hm' : m'.peak = 0) (hcaptures : m.captures.size ≤ m'.captures.size)
    (hsteps : m.stepLimit ≤ m'.stepLimit) {input : Array UInt8} {start : Nat} (f : Callback σ)
    (gathered : σ) {found : Option Match}
    (hfound : (m.tryMatch input start f gathered).outcome = .ok found) :
    ((m.tryMatch input start f gathered).matcher.peak ≤ m'.frames.size →
      m'.reported input start f gathered = m.reported input start f gathered ∧
        (m'.tryMatch input start f gathered).outcome = .ok found ∧
        (m'.tryMatch input start f gathered).gathered =
          (m.tryMatch input start f gathered).gathered ∧
        (m'.tryMatch input start f gathered).matcher.peak =
          (m.tryMatch input start f gathered).matcher.peak) ∧
    (m'.frames.size < (m.tryMatch input start f gathered).matcher.peak →
      (m'.tryMatch input start f gathered).outcome =
          .error (.scratchExhausted m'.frames.size) ∧
        m'.reported input start f gathered <+: m.reported input start f gathered) := by
  obtain ⟨houtcome, hgathered, hmatcher⟩ := m.tryMatch_noting input start f gathered
  obtain ⟨houtcome', hgathered', hmatcher'⟩ := m'.tryMatch_noting input start f gathered
  rw [← houtcome] at hfound
  rw [← hmatcher, ← hmatcher', ← hgathered, ← hgathered', ← houtcome', reported, reported]
  by_cases hstart : start ≤ input.size
  · rw [m.tryMatch_eq hstart, hm] at hfound ⊢
    rw [m'.tryMatch_eq hstart, hm', hprogram]
    obtain ⟨hroom, hless⟩ := run_roomier (MachineState.roomier_initial start hcaptures)
      m.stepLimit m'.stepLimit hsteps hfound
    refine ⟨fun hpeak => ?_, hless⟩
    obtain ⟨hok, hnoted, hpeak'⟩ := hroom hpeak
    exact ⟨congrArg Prod.fst hnoted, hok, congrArg Prod.snd hnoted, hpeak'⟩
  · rw [tryMatch, tryMatch, if_neg hstart, if_neg hstart] at *
    refine ⟨fun _ => ⟨rfl, hfound, rfl, hm'.trans hm.symm⟩, fun hlt => ?_⟩
    rw [hm] at hlt
    exact absurd hlt (Nat.not_lt_zero _)

/-- On `aaa`, `<a>+a` has two matches, of which the second is found after an iteration has been
given back.  That takes two frames: with eight nothing is different, and one does not suffice. -/
theorem tryMatch_resized_givingBack :
    let m := ofRegex .givingBack 8 3
    let enough := ofRegex .givingBack 2 5
    let few := ofRegex .givingBack 1 3
    let input : Array UInt8 := #[0x61, 0x61, 0x61]
    m.reported input 0 collectAll [] =
        [⟨0, 3, [⟨0, 0, 1⟩, ⟨0, 1, 2⟩]⟩, ⟨0, 2, [⟨0, 0, 1⟩]⟩] ∧
      (m.tryMatch input 0 collectAll []).matcher.peak = 2 ∧
      enough.reported input 0 collectAll [] = m.reported input 0 collectAll [] ∧
      (enough.tryMatch input 0 collectAll []).outcome = .ok none ∧
      (enough.tryMatch input 0 collectAll []).matcher.peak = 2 ∧
      (few.tryMatch input 0 collectAll []).outcome = .error (.scratchExhausted 1) := by
  intro m enough few input
  have hfound : (m.tryMatch input 0 collectAll []).outcome = .ok none := by decide +kernel
  have hpeak : (m.tryMatch input 0 collectAll []).matcher.peak = 2 := by decide +kernel
  have hreported : m.reported input 0 collectAll [] =
      [⟨0, 3, [⟨0, 0, 1⟩, ⟨0, 1, 2⟩]⟩, ⟨0, 2, [⟨0, 0, 1⟩]⟩] := by decide +kernel
  have hprogram : enough.program = m.program := rfl
  have hprogram' : few.program = m.program := rfl
  have henough := (tryMatch_resized hprogram rfl rfl (by decide) (Nat.le_refl _) collectAll []
    hfound).1
  have hfew := (tryMatch_resized hprogram' rfl rfl (by decide) (Nat.le_refl _) collectAll []
    hfound).2
  rw [hpeak] at henough
  rw [hpeak] at hfew
  obtain ⟨hsame, houtcome, -, hpeak'⟩ := henough (by decide)
  exact ⟨hreported, hpeak, hsame, houtcome, hpeak', (hfew (by decide)).1⟩

end Matcher

end BoundedRegex
