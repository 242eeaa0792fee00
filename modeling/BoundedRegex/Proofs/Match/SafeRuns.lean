import BoundedRegex.Proofs.Match.Runs
import BoundedRegex.Proofs.Match.Safety

/-!
# Safe runs

Every state of an attempt at running sound code is safe, whatever the callback does: it reads
nothing outside the code, the input and the buffers, and the matches that it reports lie within
the input.
-/

namespace BoundedRegex

/-- A match lies within an input of `size` bytes, and its spans lie within the match. -/
structure Match.Ordered (size : Nat) (m : Match) : Prop where
  start_le : m.start ≤ m.stop
  stop_le : m.stop ≤ size
  captures : SpansWithin m.start m.stop m.captures

/-- What a frame remembers leads to the start of an instruction and is within the input and the
buffer of spans, which has `slots` slots.  A frame of a greedy single-byte loop has a byte to give
back. -/
def Frame.InRange (p : Program) (input : Array UInt8) (slots : Nat) : Frame → Prop
  | alternative ip pos log => p.Starts ip ∧ pos ≤ input.size ∧ log ≤ slots
  | capture _ pos => pos ≤ input.size
  | loop f => ∃ l n, p.fetch? f.ip = some (.loop l, n) ∧ p.Starts f.ip ∧ p.Starts (Loop.body f.ip) ∧
      p.Starts (l.after f.ip) ∧ f.start ≤ f.pos ∧ f.pos ≤ input.size ∧
      f.startLog ≤ f.log ∧ f.log ≤ slots ∧
      (l.singleByte = true → f.start + f.count ≤ input.size ∧
        (l.greedy = true → l.min.toNat < f.count))

/-- What the next step reads is there. -/
structure MachineState.InRange (p : Program) (input : Array UInt8) (s : MachineState) : Prop where
  /-- The address is the start of an instruction, all of which is code. -/
  ip : s.mode = .executing →
    p.Starts s.ip ∧ ∃ i size, p.fetch? s.ip = some (i, size) ∧ s.ip + size ≤ p.code.length
  pos_le : s.pos ≤ input.size
  sp_le : s.sp ≤ s.frames.size
  log_le : s.log ≤ s.captures.size
  frames {k : Nat} : k < s.sp → (s.frames.getD k .blank).InRange p input s.captures.size
  /-- The bytes that a single-byte loop takes are bytes of the input. -/
  runs (i : Instr) (limit : Nat) :
    s.pos ≤ runEnd i input s.pos limit ∧ runEnd i input s.pos limit ≤ input.size
  /-- The step finds an instruction wherever it looks for one. -/
  step (t : MachineState) : Machine.step p input s ≠ .malformed t

/-- What every state of an attempt keeps to. -/
structure MachineState.Safe (p : Program) (input : Array UInt8) (start : Nat)
    (s : MachineState) : Prop where
  sane : s.Sane p
  config : s.config.Safe p input start
  pos_le : s.pos ≤ input.size

/-- What comes of a step is safe. -/
def StepResult.Safe (p : Program) (input : Array UInt8) (start : Nat) : StepResult → Prop
  | running s => s.Safe p input start
  | accepted s =>
    ({ s with mode := .backtracking } : MachineState).Safe p input start ∧
      (s.toMatch start).Ordered input.size
  | exhausted _ | overflowed _ _ => True
  | malformed _ => False

variable {p : Program} {input : Array UInt8} {start : Nat} {s t : MachineState}

theorem mem_entries {frames : Array Frame} {captures : Array Capture} {k n : Nat} (h : k < n) :
    (frames.getD k .blank).entry captures ∈ entries frames captures n := by
  induction n with
  | zero => cases h
  | succ n ih =>
    rw [entries, List.mem_cons]
    rcases Nat.lt_succ_iff_lt_or_eq.1 h with h | rfl
    · exact Or.inr (ih h)
    · exact Or.inl rfl

theorem Nested.within {frames : Array Frame} {k n log : Nat} (h : Nested p frames n log)
    (hk : k < n) : (frames.getD k .blank).Within p log :=
  (h.le (Nat.succ_le_of_lt hk)).1

theorem Config.Safe.stackSafe {c : Config} (h : c.Safe p input start) :
    StackSafe p input start input.size c.stack := by
  cases c with
  | running ip pos log stack => exact h.2.stack.mono h.2.le_size
  | failing stack => exact h

namespace MachineState

theorem stack_config (s : MachineState) : s.config.stack = s.stack := by
  unfold config
  split <;> rfl

theorem config_of_executing (h : s.mode = .executing) :
    s.config = .running s.ip s.pos (spans s.captures s.log) s.stack := by
  rw [config, h]

theorem safe_initial (hp : p.Sound) (hstart : start ≤ input.size) (frames : Array Frame)
    (captures : Array Capture) (peak : Nat) :
    (initial start frames captures peak).Safe p input start where
  sane := sane_initial _ start frames captures peak
  config := by
    rw [config_initial]
    exact ⟨hp.zero, Nat.le_refl _, hstart, spansWithin_nil start start, trivial⟩
  pos_le := hstart

namespace Safe

theorem inRange_frame (h : s.Safe p input start) (hp : p.Sound) {k : Nat} (hk : k < s.sp) :
    (s.frames.getD k .blank).InRange p input s.captures.size := by
  have hwithin := h.sane.nested.within hk
  have hmem : (s.frames.getD k .blank).entry s.captures ∈ s.stack := mem_entries hk
  have hsafe := (s.stack_config ▸ h.config.stackSafe).of_mem hmem
  have hlog := h.sane.log_le
  revert hwithin hsafe
  cases s.frames.getD k .blank with
  | alternative ip pos log =>
    rintro hwithin ⟨hip, -, hpos, -⟩
    exact ⟨hip, hpos, Nat.le_trans hwithin hlog⟩
  | capture index pos =>
    rintro - ⟨-, hpos⟩
    exact hpos
  | loop f =>
    rintro hw ⟨l, n, hip, hf, ho⟩
    obtain ⟨hbody, hafter, -⟩ := hp.loop hip hf
    have hstart : f.start ≤ f.origin := by
      unfold LoopFrame.origin
      split
      · next hbetween => exact (hw.between hbetween).1
      · exact Nat.le_refl _
    refine ⟨l, n, hf, hip, hbody, hafter, Nat.le_trans hstart ho.le_pos, ho.pos_le, hw.startLog_le,
      Nat.le_trans hw.log_le hlog, fun hl => ?_⟩
    obtain ⟨hbytes, hmin⟩ := (ho.bytes hl).2.2
    exact ⟨Nat.le_trans (Nat.add_le_add_right hstart _) hbytes, hmin⟩

/-- **A step of a safe state is safe.** -/
theorem step (h : s.Safe p input start) (hp : p.Sound) :
    (Machine.step p input s).Safe p input start := by
  have href := refines_step h.sane input
  have hnext := Config.safe_step hp h.config
  generalize s.config.step p input = next at href hnext
  generalize hresult : Machine.step p input s = result at href ⊢
  cases href with
  | @running u c hu hc hf hk _ hback =>
    refine ⟨hu, hc ▸ hnext, ?_⟩
    cases hmode : u.mode with
    | executing =>
      rw [← hc, config_of_executing hmode] at hnext
      exact hnext.2.le_size
    | backtracking => exact (hback hmode).1 ▸ h.pos_le
  | accepted =>
    obtain ⟨hstart, hpos, hlog, hstack⟩ := hnext
    refine ⟨⟨⟨h.sane.sp_le, h.sane.log_le, h.sane.sp_le_peak, h.sane.nested⟩, hstack.mono hpos,
      hpos⟩, hstart, hpos, ?_⟩
    show SpansWithin start s.pos (s.captures.extract 0 s.log).toList
    simpa [spans] using hlog
  | exhausted => trivial
  | scratch => trivial
  | log => trivial
  | malformed => exact hnext

theorem inRange (h : s.Safe p input start) (hp : p.Sound) : s.InRange p input where
  ip := fun hmode => by
    have hconfig := h.config
    rw [config_of_executing hmode] at hconfig
    obtain ⟨i, size, hf⟩ := hp.fetch hconfig.1
    exact ⟨hconfig.1, i, size, hf, (Program.length_of_fetch? hf).2⟩
  pos_le := h.pos_le
  sp_le := h.sane.sp_le
  log_le := h.sane.log_le
  frames := h.inRange_frame hp
  runs := fun i limit => ⟨le_runEnd input i s.pos limit, runEnd_le_size i h.pos_le limit⟩
  step := fun t ht => by
    have hstep := h.step hp
    rw [ht] at hstep
    exact hstep

/-- All that an attempt reaches is safe. -/
theorem of_reaches (h : s.Safe p input start) (hp : p.Sound) (ht : Machine.Reaches p input s t) :
    t.Safe p input start := by
  induction ht with
  | refl => exact h
  | step _ hs ih =>
    have hstep := ih.step hp
    rw [hs] at hstep
    exact hstep
  | resume _ hs ih =>
    have hstep := ih.step hp
    rw [hs] at hstep
    exact hstep.1

/-- What a callback keeps up on matches that are in order, an attempt keeps up, and the match with
which it ends is in order. -/
theorem run (h : s.Safe p input start) (hp : p.Sound) {σ : Type} (f : Callback σ) (limit : Nat)
    {Keeps : σ → Prop}
    (hf : ∀ gathered m, Keeps gathered → m.start = start → m.Ordered input.size →
      Keeps (f gathered m).1)
    (steps : Nat) {gathered : σ} (hg : Keeps gathered) :
    Keeps (Matcher.run p input start limit f steps gathered s).2.1 ∧
      ∀ m, (Matcher.run p input start limit f steps gathered s).1 = .ok (some m) →
        m.start = start ∧ m.Ordered input.size := by
  induction steps generalizing s gathered with
  | zero => exact ⟨hg, nofun⟩
  | succ steps ih =>
    have hstep := h.step hp
    rw [Matcher.run]
    generalize Machine.step p input s = result at hstep ⊢
    cases result with
    | running u => exact ih hstep hg
    | accepted u =>
      have hkeeps := hf gathered (u.toMatch start) hg rfl hstep.2
      dsimp only
      generalize f gathered (u.toMatch start) = answer at hkeeps ⊢
      obtain ⟨gathered', action⟩ := answer
      cases action with
      | goOn => exact ih hstep.1 hkeeps
      | stop =>
        refine ⟨hkeeps, ?_⟩
        intro m hm
        cases hm
        exact ⟨rfl, hstep.2⟩
    | exhausted | overflowed => exact ⟨hg, nofun⟩
    | malformed => exact hstep.elim

end Safe

end MachineState

end BoundedRegex
