import BoundedRegex.Proofs.Match.Config

/-!
# The machine steps as its configurations do

`MachineState.config` forgets what is dead in a state: the frames from `sp` on, the spans from `log`
on, and where a loop that keeps frames was entered.  In a sane state, where the logs that the frames
remember are nested, a step of the machine is a step of its configuration, unless the step needs
room that a buffer does not have (`refines_step`).  So nothing dead is ever read, and a buffer that
is too small does no more than stop the machine.
-/

namespace BoundedRegex

/-- The first `n` spans of a buffer. -/
def spans (captures : Array Capture) (n : Nat) : List Capture :=
  captures.toList.take n

/-- Whether a loop is between iterations whose frames are kept. -/
def LoopPhase.between : LoopPhase → Bool
  | boundary | counter => true
  | _ => false

theorem LoopPhase.between_eq_false {phase : LoopPhase} (hcounter : phase ≠ .counter)
    (hboundary : phase ≠ .boundary) : phase.between = false := by
  cases phase with
  | boundary => exact absurd rfl hboundary
  | counter => exact absurd rfl hcounter
  | _ => rfl

/-- There is a loop at an address that keeps the frames of its iterations. -/
def Program.KeepsAt (p : Program) (ip : Nat) : Prop :=
  ∃ l n, p.fetch? ip = some (.loop l, n) ∧ l.keepsFrames = true

namespace LoopFrame

/-- The offset back to which a frame leads at most.  Between iterations that have frames of their
own, that is the offset at which the frame was pushed, and its start is never read. -/
def origin (f : LoopFrame) : Nat :=
  if f.phase.between then f.pos else f.start

/-- The length of the log at that offset. -/
def originLog (f : LoopFrame) : Nat :=
  if f.phase.between then f.log else f.startLog

/-- The entry that the frame of a loop stands for. -/
def entry (captures : Array Capture) (f : LoopFrame) : LoopEntry :=
  { ip := f.ip, phase := f.phase, pos := f.pos, log := spans captures f.log
    start := f.origin, startLog := spans captures f.originLog, count := f.count }

/-- The logs that the frame of a loop remembers are no longer than `log`, and only a loop that keeps
the frames of its iterations is between two of them. -/
structure Within (p : Program) (log : Nat) (f : LoopFrame) : Prop where
  startLog_le : f.startLog ≤ f.log
  log_le : f.log ≤ log
  between : f.phase.between = true → f.start ≤ f.pos ∧ p.KeepsAt f.ip

section

variable {p : Program} {log : Nat} {f : LoopFrame}

theorem origin_eq (h : f.phase.between = false) : f.origin = f.start := by
  simp [origin, h]

theorem originLog_eq (h : f.phase.between = false) : f.originLog = f.startLog := by
  simp [originLog, h]

theorem entry_eq (h : f.phase.between = false) (captures : Array Capture) :
    f.entry captures =
      { ip := f.ip, phase := f.phase, pos := f.pos, log := spans captures f.log
        start := f.start, startLog := spans captures f.startLog, count := f.count } := by
  rw [entry, origin_eq h, originLog_eq h]

theorem Within.originLog_le (h : f.Within p log) : f.originLog ≤ f.log := by
  unfold originLog
  split
  · exact Nat.le_refl _
  · exact h.startLog_le

theorem Within.mono {log' : Nat} (h : f.Within p log) (hle : log ≤ log') : f.Within p log' :=
  { h with log_le := Nat.le_trans h.log_le hle }

/-- The frame of a loop that commits its iterations is not between two of them. -/
theorem Within.not_between (h : f.Within p log) {l : Loop} {n : Nat}
    (hf : p.fetch? f.ip = some (.loop l, n)) (hl : l.keepsFrames = false) :
    f.phase.between = false := by
  refine Bool.eq_false_iff.2 fun hbetween => ?_
  obtain ⟨-, l', n', hf', hl'⟩ := h.between hbetween
  cases hf.symm.trans hf'
  rw [hl] at hl'
  cases hl'

end

end LoopFrame

namespace Frame

/-- The entry that a frame stands for. -/
def entry (captures : Array Capture) : Frame → Entry
  | .alternative ip pos log => .alternative ip pos (spans captures log)
  | .capture index pos => .capture index pos
  | .loop f => .loop (f.entry captures)

/-- The logs that a frame remembers are no longer than `log`. -/
def Within (p : Program) (log : Nat) : Frame → Prop
  | .alternative _ _ l => l ≤ log
  | .capture _ _ => True
  | .loop f => f.Within p log

/-- The shortest log to which a frame goes back, in a state whose log is `log`. -/
def floor (log : Nat) : Frame → Nat
  | .alternative _ _ l => l
  | .capture _ _ => log
  | .loop f => f.originLog

theorem floor_le {p : Program} {log : Nat} {f : Frame} (h : f.Within p log) :
    f.floor log ≤ log := by
  cases f with
  | alternative => exact h
  | capture => exact Nat.le_refl _
  | loop f => exact Nat.le_trans h.originLog_le h.log_le

end Frame

/-- The entries of the first `n` frames, the topmost in front. -/
def entries (frames : Array Frame) (captures : Array Capture) : Nat → List Entry
  | 0 => []
  | n + 1 => (frames.getD n .blank).entry captures :: entries frames captures n

/-- The logs that the first `n` frames remember are nested, the longest on top and within `log`. -/
def Nested (p : Program) (frames : Array Frame) : Nat → Nat → Prop
  | 0, _ => True
  | n + 1, log =>
    (frames.getD n .blank).Within p log ∧ Nested p frames n ((frames.getD n .blank).floor log)

theorem Nested.mono {p : Program} {frames : Array Frame} {n a b : Nat} (h : Nested p frames n a)
    (hab : a ≤ b) : Nested p frames n b := by
  induction n generalizing a b with
  | zero => trivial
  | succ n ih =>
    obtain ⟨hw, hn⟩ := h
    cases hf : frames.getD n .blank with
    | alternative ip pos l =>
      rw [hf] at hw hn
      exact ⟨by rw [hf]; exact Nat.le_trans hw hab, by rw [hf]; exact hn⟩
    | capture i pos =>
      rw [hf] at hn
      exact ⟨by rw [hf]; trivial, by rw [hf]; exact ih hn hab⟩
    | loop f =>
      rw [hf] at hw hn
      exact ⟨by rw [hf]; exact LoopFrame.Within.mono hw hab, by rw [hf]; exact hn⟩

theorem Nested.tail {p : Program} {frames : Array Frame} {n log : Nat}
    (h : Nested p frames (n + 1) log) : Nested p frames n log :=
  h.2.mono (Frame.floor_le h.1)

theorem Nested.le {p : Program} {frames : Array Frame} {m n log : Nat} (h : Nested p frames n log)
    (hmn : m ≤ n) : Nested p frames m log := by
  induction n with
  | zero => rw [Nat.le_zero.1 hmn]; trivial
  | succ n ih =>
    rcases Nat.lt_or_ge n m with hlt | hge
    · rw [Nat.le_antisymm hmn hlt]; exact h
    · exact ih h.tail hge

/-! ### What a write leaves alone -/

theorem getD_setIfInBounds_of_ne {α : Type} {a : Array α} {i j : Nat} {x d : α} (h : i ≠ j) :
    (a.setIfInBounds i x).getD j d = a.getD j d := by
  simp only [Array.getD_eq_getD_getElem?, Array.getElem?_setIfInBounds_ne h]

theorem getD_setIfInBounds_self {α : Type} {a : Array α} {i : Nat} {x d : α} (h : i < a.size) :
    (a.setIfInBounds i x).getD i d = x := by
  simp only [Array.getD_eq_getD_getElem?, Array.getElem?_setIfInBounds_self_of_lt h,
    Option.getD_some]

theorem entries_setIfInBounds {frames : Array Frame} {captures : Array Capture} {f : Frame}
    {i n : Nat} (h : n ≤ i) :
    entries (frames.setIfInBounds i f) captures n = entries frames captures n := by
  induction n with
  | zero => rfl
  | succ n ih =>
    have hne : i ≠ n := by omega
    rw [entries, entries, getD_setIfInBounds_of_ne hne, ih (by omega)]

theorem nested_setIfInBounds {p : Program} {frames : Array Frame} {f : Frame} {i n log : Nat}
    (h : n ≤ i) : Nested p (frames.setIfInBounds i f) n log ↔ Nested p frames n log := by
  induction n generalizing log with
  | zero => exact Iff.rfl
  | succ n ih =>
    have hne : i ≠ n := by omega
    rw [Nested, Nested, getD_setIfInBounds_of_ne hne, ih (by omega)]

theorem spans_setIfInBounds {captures : Array Capture} {c : Capture} {i n : Nat} (h : n ≤ i) :
    spans (captures.setIfInBounds i c) n = spans captures n := by
  rw [spans, spans, Array.toList_setIfInBounds, List.take_set_of_le h]

theorem spans_succ {captures : Array Capture} {c : Capture} {n : Nat} (h : n < captures.size) :
    spans (captures.setIfInBounds n c) (n + 1) = spans captures n ++ [c] := by
  have hlen : n < (captures.toList.set n c).length := by simpa using h
  rw [spans, spans, Array.toList_setIfInBounds, List.take_succ_eq_append_getElem hlen,
    List.take_set_of_le (Nat.le_refl n), List.getElem_set_self]

theorem length_spans {captures : Array Capture} {n : Nat} (h : n ≤ captures.size) :
    (spans captures n).length = n := by
  rw [spans, List.length_take, Array.length_toList, Nat.min_eq_left h]

theorem entry_setIfInBounds {p : Program} {captures : Array Capture} {c : Capture} {i log : Nat}
    {f : Frame} (h : f.Within p log) (hi : log ≤ i) :
    f.entry (captures.setIfInBounds i c) = f.entry captures := by
  cases f with
  | alternative ip pos l =>
    have hl : l ≤ log := h
    simp only [Frame.entry, spans_setIfInBounds (Nat.le_trans hl hi)]
  | capture => rfl
  | loop f =>
    have hl := Nat.le_trans h.log_le hi
    have hl' := Nat.le_trans h.originLog_le hl
    simp only [Frame.entry, LoopFrame.entry, spans_setIfInBounds hl, spans_setIfInBounds hl']

/-- A span that is written behind a log changes no entry that remembers only logs within it. -/
theorem entries_setIfInBounds_captures {p : Program} {frames : Array Frame}
    {captures : Array Capture} {c : Capture} {i n log : Nat} (h : Nested p frames n log)
    (hi : log ≤ i) :
    entries frames (captures.setIfInBounds i c) n = entries frames captures n := by
  induction n generalizing log with
  | zero => rfl
  | succ n ih =>
    rw [entries, entries, entry_setIfInBounds h.1 hi, ih h.tail hi]

@[simp] theorem length_entries (frames : Array Frame) (captures : Array Capture) (n : Nat) :
    (entries frames captures n).length = n := by
  induction n with
  | zero => rfl
  | succ n ih => rw [entries, List.length_cons, ih]

/-! ### Looking for a frame -/

@[simp] theorem opens_entry (captures : Array Capture) (index : UInt8) (f : Frame) :
    (f.entry captures).opens index = f.opens index := by
  cases f <;> rfl

@[simp] theorem isOfLoop_entry (captures : Array Capture) (ip : Nat) (f : Frame) :
    (f.entry captures).isOfLoop ip = f.isOfLoop ip := by
  cases f <;> rfl

/-- What looking for the topmost frame comes to. -/
theorem topmost?_cases (p : Frame → Bool) (q : Entry → Bool) (frames : Array Frame)
    (captures : Array Capture) (hpq : ∀ f : Frame, q (f.entry captures) = p f) (n : Nat) :
    (topmost? p frames n = none ∧
      (entries frames captures n).dropWhile (fun e => !q e) = [] ∧
      (entries frames captures n).find? q = none) ∨
    ∃ top, topmost? p frames n = some top ∧ top < n ∧ p (frames.getD top .blank) = true ∧
      (entries frames captures n).dropWhile (fun e => !q e) = entries frames captures (top + 1) ∧
      (entries frames captures n).find? q = some ((frames.getD top .blank).entry captures) ∧
      (top + 1 = n ↔ p (frames.getD (n - 1) .blank) = true) := by
  induction n with
  | zero => exact Or.inl ⟨rfl, rfl, rfl⟩
  | succ n ih =>
    have hq := hpq (frames.getD n .blank)
    by_cases hp : p (frames.getD n .blank) = true
    · refine Or.inr ⟨n, ?_, Nat.lt_succ_self n, hp, ?_, ?_, ?_⟩
      · rw [topmost?, if_pos hp]
      · rw [entries, List.dropWhile_cons_of_neg (by rw [hq, hp]; decide)]
      · rw [entries, List.find?_cons_of_pos (by rw [hq, hp])]
      · exact ⟨fun _ => hp, fun _ => rfl⟩
    · have htop : topmost? p frames (n + 1) = topmost? p frames n := by rw [topmost?, if_neg hp]
      have hdrop : (entries frames captures (n + 1)).dropWhile (fun e => !q e) =
          (entries frames captures n).dropWhile (fun e => !q e) := by
        rw [entries, List.dropWhile_cons_of_pos (by rw [hq, Bool.eq_false_iff.2 hp]; rfl)]
      have hfind : (entries frames captures (n + 1)).find? q =
          (entries frames captures n).find? q := by
        rw [entries, List.find?_cons_of_neg (by rw [hq]; exact hp)]
      rw [htop, hdrop, hfind]
      rcases ih with ⟨h₁, h₂, h₃⟩ | ⟨top, h₁, hlt, h₂, h₃, h₄, -⟩
      · exact Or.inl ⟨h₁, h₂, h₃⟩
      · refine Or.inr ⟨top, h₁, by omega, h₂, h₃, h₄, fun h => by omega, ?_⟩
        intro h
        exact absurd h hp

/-! ### Sane states -/

namespace MachineState

/-- The frames that are alive, the topmost in front. -/
def stack (s : MachineState) : List Entry :=
  entries s.frames s.captures s.sp

/-- What is alive in a state. -/
def config (s : MachineState) : Config :=
  match s.mode with
  | .executing => .running s.ip s.pos (spans s.captures s.log) s.stack
  | .backtracking => .failing s.stack

@[simp] theorem length_stack_config (s : MachineState) : s.config.stack.length = s.sp := by
  unfold config
  split <;> exact length_entries ..

/-- What every state of a run of a program keeps to, whatever the program. -/
structure Sane (p : Program) (s : MachineState) : Prop where
  sp_le : s.sp ≤ s.frames.size
  log_le : s.log ≤ s.captures.size
  sp_le_peak : s.sp ≤ s.peak
  nested : Nested p s.frames s.sp s.log

theorem length_log_config_le {p : Program} {s : MachineState} (hs : s.Sane p) :
    s.config.log.length ≤ s.captures.size := by
  unfold config
  split
  · exact Nat.le_trans (Nat.le_of_eq (length_spans hs.log_le)) hs.log_le
  · exact Nat.zero_le _

theorem sane_initial (p : Program) (pos : Nat) (frames : Array Frame) (captures : Array Capture)
    (peak : Nat) : (initial pos frames captures peak).Sane p :=
  ⟨Nat.zero_le _, Nat.zero_le _, Nat.zero_le _, trivial⟩

theorem config_initial (pos : Nat) (frames : Array Frame) (captures : Array Capture)
    (peak : Nat) : (initial pos frames captures peak).config = .running 0 pos [] [] := by
  simp [config, initial, spans, stack, entries]

/-- A state with one frame more. -/
def pushed (s : MachineState) (f : Frame) : MachineState :=
  { s with
    frames := s.frames.setIfInBounds s.sp f
    sp := s.sp + 1
    peak := Nat.max s.peak (s.sp + 1) }

theorem push_eq (s : MachineState) (f : Frame) (next : MachineState → StepResult) :
    s.push f next =
      if s.sp < s.frames.size then next (s.pushed f)
      else .overflowed (.scratchExhausted s.frames.size) s :=
  rfl

end MachineState

/-! ### Steps -/

/-- What a step from `s` comes to is what the configurations' step comes to, or a buffer is full
that this step overfills. -/
inductive StepResult.Refines (p : Program) (s : MachineState) : StepResult → Next → Prop where
  | running {s' : MachineState} {c : Config} (hs : s'.Sane p) (hc : s'.config = c)
      (hf : s'.frames.size = s.frames.size) (hk : s'.captures.size = s.captures.size)
      (hp : s'.peak = Nat.max s.peak s'.sp)
      (hback : s'.mode = .backtracking →
        s'.pos = s.pos ∧ s'.log = s.log ∧ s'.captures = s.captures) :
      Refines p s (.running s') (.going c)
  | accepted : Refines p s (.accepted s) (.accepted s.pos (spans s.captures s.log) s.stack)
  | exhausted : Refines p s (.exhausted s) .exhausted
  | malformed : Refines p s (.malformed s) .malformed
  | scratch {c : Config} (hsp : s.sp = s.frames.size) (hc : c.stack.length = s.sp + 1) :
      Refines p s (.overflowed (.scratchExhausted s.frames.size) s) (.going c)
  | log {c : Config} (hlog : s.log = s.captures.size) (hc : c.log.length = s.log + 1) :
      Refines p s (.overflowed (.captureBufferExhausted s.captures.size) s) (.going c)

open MachineState StepResult

variable {p : Program} {s : MachineState}

theorem refines_goto (hs : s.Sane p) (ip : Nat) :
    Refines p s (s.goto ip) (.run ip s.pos (spans s.captures s.log) s.stack) :=
  .running ⟨hs.sp_le, hs.log_le, hs.sp_le_peak, hs.nested⟩ rfl rfl rfl
    (Nat.max_eq_left hs.sp_le_peak).symm fun _ => ⟨rfl, rfl, rfl⟩

theorem refines_fail (hs : s.Sane p) : Refines p s s.fail (.fail s.stack) :=
  .running ⟨hs.sp_le, hs.log_le, hs.sp_le_peak, hs.nested⟩ rfl rfl rfl
    (Nat.max_eq_left hs.sp_le_peak).symm fun _ => ⟨rfl, rfl, rfl⟩

/-- Goes on from another place in the input. -/
theorem refines_move (hs : s.Sane p) (ip pos : Nat) :
    Refines p s (.running { s with mode := .executing, ip, pos })
      (.run ip pos (spans s.captures s.log) s.stack) :=
  .running ⟨hs.sp_le, hs.log_le, hs.sp_le_peak, hs.nested⟩ rfl rfl rfl
    (Nat.max_eq_left hs.sp_le_peak).symm nofun

/-- Pushing a frame puts its entry on the stack. -/
theorem refines_push (hs : s.Sane p) {f : Frame} (hf : f.Within p s.log)
    (hfloor : f.floor s.log = s.log) {next : MachineState → StepResult} {ip pos : Nat}
    (hnext : next (s.pushed f) = .running { s.pushed f with mode := .executing, ip, pos }) :
    Refines p s (s.push f next)
      (.run ip pos (spans s.captures s.log) (f.entry s.captures :: s.stack)) := by
  rw [push_eq]
  by_cases hsp : s.sp < s.frames.size
  · rw [if_pos hsp, hnext]
    have hget : (s.frames.setIfInBounds s.sp f).getD s.sp .blank = f :=
      getD_setIfInBounds_self hsp
    have hnested : Nested p (s.frames.setIfInBounds s.sp f) (s.sp + 1) s.log := by
      rw [Nested, hget, hfloor, nested_setIfInBounds (Nat.le_refl _)]
      exact ⟨hf, hs.nested⟩
    have hsize : (s.pushed f).frames.size = s.frames.size := Array.size_setIfInBounds
    refine .running ⟨?_, hs.log_le, Nat.le_max_right .., hnested⟩ ?_ hsize rfl rfl nofun
    · show s.sp + 1 ≤ (s.pushed f).frames.size
      rw [hsize]
      exact hsp
    · show Config.running ip pos (spans s.captures s.log)
        (entries (s.frames.setIfInBounds s.sp f) s.captures (s.sp + 1)) = _
      rw [entries, hget, entries_setIfInBounds (Nat.le_refl _)]
      rfl
  · rw [if_neg hsp]
    refine .scratch (Nat.le_antisymm hs.sp_le (Nat.le_of_not_lt hsp)) ?_
    show (f.entry s.captures :: s.stack).length = s.sp + 1
    rw [List.length_cons, MachineState.stack, length_entries]

/-- Changing the topmost frame that is kept, and dropping those above it. -/
theorem refines_replace (hs : s.Sane p) {top : Nat} (htop : top < s.sp) {f : Frame} {log : Nat}
    (hlog : log ≤ s.captures.size) (hf : f.Within p log)
    (hnested : Nested p s.frames top (f.floor log)) (ip pos : Nat) :
    Refines p s
      (.running { s with
        mode := .executing, ip, pos, log, sp := top + 1
        frames := s.frames.setIfInBounds top f })
      (.run ip pos (spans s.captures log)
        (f.entry s.captures :: entries s.frames s.captures top)) := by
  have hlt : top < s.frames.size := Nat.lt_of_lt_of_le htop hs.sp_le
  have hget : (s.frames.setIfInBounds top f).getD top .blank = f := getD_setIfInBounds_self hlt
  have hsize : (s.frames.setIfInBounds top f).size = s.frames.size := Array.size_setIfInBounds
  have hpeak : top + 1 ≤ s.peak := Nat.le_trans htop hs.sp_le_peak
  refine .running ⟨?_, hlog, hpeak, ?_⟩ ?_ hsize rfl (Nat.max_eq_left hpeak).symm nofun
  · show top + 1 ≤ (s.frames.setIfInBounds top f).size
    rw [hsize]
    exact hlt
  · show Nested p (s.frames.setIfInBounds top f) (top + 1) log
    rw [Nested, hget, nested_setIfInBounds (Nat.le_refl _)]
    exact ⟨hf, hnested⟩
  · show Config.running ip pos (spans s.captures log)
      (entries (s.frames.setIfInBounds top f) s.captures (top + 1)) = _
    rw [entries, hget, entries_setIfInBounds (Nat.le_refl _)]

/-- Going back to a frame that is dropped. -/
theorem refines_resume (hs : s.Sane p) {top log : Nat} (htop : top ≤ s.sp)
    (hlog : log ≤ s.captures.size) (hnested : Nested p s.frames top log) (ip pos : Nat) :
    Refines p s (.running { s with mode := .executing, ip, pos, log, sp := top })
      (.run ip pos (spans s.captures log) (entries s.frames s.captures top)) := by
  have hpeak : top ≤ s.peak := Nat.le_trans htop hs.sp_le_peak
  exact .running ⟨Nat.le_trans htop hs.sp_le, hlog, hpeak, hnested⟩ rfl rfl rfl
    (Nat.max_eq_left hpeak).symm nofun

/-- Dropping the topmost frame, and going on to the one below it. -/
theorem refines_drop (hs : s.Sane p) {top : Nat} (htop : s.sp = top + 1) :
    Refines p s (MachineState.fail { s with sp := top })
      (.fail (entries s.frames s.captures top)) := by
  have hle : top ≤ s.sp := by omega
  have hpeak : top ≤ s.peak := Nat.le_trans hle hs.sp_le_peak
  exact .running ⟨Nat.le_trans hle hs.sp_le, hs.log_le, hpeak, hs.nested.le hle⟩ rfl rfl rfl
    (Nat.max_eq_left hpeak).symm fun _ => ⟨rfl, rfl, rfl⟩

/-! #### Captures -/

theorem dropOpening_entries {index : UInt8} {frames : Array Frame} {captures : Array Capture}
    {top n : Nat} (hlt : top < n)
    (htop : top + 1 = n ↔ Frame.opens index (frames.getD (n - 1) .blank) = true) :
    Config.dropOpening index (entries frames captures n) =
      entries frames captures (if top + 1 = n then top else n) := by
  obtain ⟨m, rfl⟩ : ∃ m, n = m + 1 := ⟨n - 1, by omega⟩
  rw [Nat.add_sub_cancel] at htop
  rw [entries, Config.dropOpening, opens_entry]
  by_cases h : top + 1 = m + 1
  · rw [if_pos (htop.1 h), if_pos h, Nat.succ.inj h]
  · rw [if_neg fun ho => h (htop.2 ho), if_neg h, entries]

theorem refines_closeCapture (hs : s.Sane p) (index : UInt8) (next : Nat) :
    Refines p s (Machine.closeCapture s index next)
      (Config.closeCapture index next s.pos (spans s.captures s.log) s.stack) := by
  rcases topmost?_cases (Frame.opens index) (Entry.opens index) s.frames s.captures
      (fun f => opens_entry _ _ f) s.sp with ⟨hnone, -, hfind⟩ |
      ⟨top, hsome, hlt, hopens, -, hfind, htop⟩
  · simp only [Machine.closeCapture, hnone, Config.closeCapture, MachineState.stack, hfind]
    exact refines_fail hs
  · cases hframe : s.frames.getD top .blank with
    | alternative => rw [hframe] at hopens; cases hopens
    | loop => rw [hframe] at hopens; cases hopens
    | capture i start =>
      simp only [Machine.closeCapture, hsome, hframe, Config.closeCapture, MachineState.stack,
        hfind, Frame.entry]
      by_cases hlog : s.log < s.captures.size
      · rw [if_pos hlog, dropOpening_entries hlt htop, ← spans_succ hlog]
        have hsp : (if top + 1 = s.sp then top else s.sp) ≤ s.sp := by split <;> omega
        have hnested := hs.nested.le hsp
        have hsize : (s.captures.setIfInBounds s.log ⟨index, start, s.pos⟩).size =
            s.captures.size := Array.size_setIfInBounds
        rw [← entries_setIfInBounds_captures (c := ⟨index, start, s.pos⟩) hnested
          (Nat.le_refl s.log)]
        refine .running ⟨Nat.le_trans hsp hs.sp_le, ?_, Nat.le_trans hsp hs.sp_le_peak, ?_⟩ rfl rfl
          hsize (Nat.max_eq_left (Nat.le_trans hsp hs.sp_le_peak)).symm nofun
        · show s.log + 1 ≤ (s.captures.setIfInBounds s.log ⟨index, start, s.pos⟩).size
          rw [hsize]
          exact hlog
        · exact hnested.mono (Nat.le_succ _)
      · rw [if_neg hlog]
        refine .log (Nat.le_antisymm hs.log_le (Nat.le_of_not_lt hlog)) ?_
        show (spans s.captures s.log ++ [_]).length = s.log + 1
        rw [List.length_append, length_spans hs.log_le, List.length_singleton]

/-! #### Loops -/

theorem entry_enteringFrame (s : MachineState) (phase : LoopPhase) (count : Nat) :
    (Machine.enteringFrame s phase count).entry s.captures =
      .entering s.ip s.pos (spans s.captures s.log) phase count := by
  simp [Machine.enteringFrame, Frame.entry, LoopFrame.entry, LoopFrame.origin, LoopFrame.originLog,
    Entry.entering]

theorem refines_enter (hs : s.Sane p) {phase : LoopPhase}
    (hphase : phase.between = false ∨ p.KeepsAt s.ip) (count : Nat)
    {next : MachineState → StepResult} {ip pos : Nat} {f : Frame}
    (hf : f = Machine.enteringFrame s phase count)
    (hnext : next (s.pushed f) = .running { s.pushed f with mode := .executing, ip, pos }) :
    Refines p s (s.push f next)
      (.run ip pos (spans s.captures s.log)
        (.entering s.ip s.pos (spans s.captures s.log) phase count :: s.stack)) := by
  subst hf
  rw [← entry_enteringFrame]
  have hwithin : (Machine.enteringFrame s phase count).Within p s.log :=
    ⟨Nat.le_refl _, Nat.le_refl _, fun h =>
      ⟨Nat.le_refl _, hphase.resolve_left fun hphase => Bool.false_ne_true (hphase.symm.trans h)⟩⟩
  exact refines_push hs hwithin (ite_self _) hnext

theorem refines_runByteLoop (hs : s.Sane p) (input : Array UInt8) (l : Loop) (body : Instr) :
    Refines p s (Machine.runByteLoop input s l body)
      (Config.runByteLoop input s.ip s.pos (spans s.captures s.log) s.stack l body) := by
  unfold Machine.runByteLoop Config.runByteLoop
  extract_lets
  split
  · exact refines_fail hs
  · split
    · exact refines_enter hs (.inl rfl) _ rfl rfl
    · exact refines_move hs _ _

theorem refines_enterLoop (hs : s.Sane p) (input : Array UInt8) {l : Loop} {n : Nat}
    (hf : p.fetch? s.ip = some (.loop l, n)) :
    Refines p s (Machine.enterLoop p input s l)
      (Config.enterLoop p input s.ip s.pos (spans s.captures s.log) s.stack l) := by
  unfold Machine.enterLoop Config.enterLoop
  extract_lets
  split
  · next hl => exact refines_enter hs (.inr ⟨l, n, hf, hl⟩) _ rfl rfl
  · split
    · split
      · exact refines_enter hs (.inl rfl) _ rfl rfl
      · exact refines_enter hs (.inl rfl) _ rfl rfl
    · cases hfetch : p.fetch? (Loop.body s.ip) with
      | none => exact .malformed
      | some x => exact refines_runByteLoop hs input l x.1

theorem refines_keepIteration (hs : s.Sane p) {l : Loop} {f : LoopFrame} {n : Nat}
    (hf : p.fetch? f.ip = some (.loop l, n)) (hl : l.keepsFrames = true) :
    Refines p s (Machine.keepIteration s l f)
      (Config.keepIteration s.pos (spans s.captures s.log) s.stack l (f.entry s.captures)) := by
  unfold Machine.keepIteration Config.keepIteration
  dsimp -zeta only [LoopFrame.entry]
  extract_lets _ _ count needed phase
  have hbetween : phase.between = true := by
    show (if needed then LoopPhase.counter else .boundary).between = true
    split <;> rfl
  split
  · -- The start that the frame does not hold is not in its entry either.
    let g : LoopFrame :=
      { ip := f.ip, phase, pos := s.pos, log := s.log, start := 0, startLog := 0, count }
    have hentry : (Frame.loop g).entry s.captures =
        .entering f.ip s.pos (spans s.captures s.log) phase count := by
      simp [g, Frame.entry, LoopFrame.entry, LoopFrame.origin, LoopFrame.originLog, Entry.entering,
        hbetween]
    have hwithin : (Frame.loop g).Within p s.log :=
      ⟨Nat.zero_le _, Nat.le_refl _, fun _ => ⟨Nat.zero_le _, l, n, hf, hl⟩⟩
    show Refines p s (s.push (.loop g) _) (.run _ _ _ (.entering f.ip _ _ _ _ :: _))
    rw [← hentry]
    exact refines_push hs hwithin (if_pos hbetween) rfl
  · exact refines_goto hs _

theorem refines_commitIteration (hs : s.Sane p) (input : Array UInt8) (l : Loop) {top : Nat}
    (htop : top < s.sp) {f : LoopFrame} (hf : s.frames.getD top .blank = .loop f)
    (hphase : f.phase.between = false) :
    Refines p s (Machine.commitIteration input s l top f)
      (Config.commitIteration input s.pos (spans s.captures s.log)
        (entries s.frames s.captures top) l (f.entry s.captures)) := by
  have hnested := hs.nested.le (Nat.succ_le_of_lt htop)
  rw [Nested, hf] at hnested
  obtain ⟨hw, hn⟩ := hnested
  replace hn : Nested p s.frames top f.startLog := LoopFrame.originLog_eq hphase ▸ hn
  rw [LoopFrame.entry_eq hphase]
  unfold Machine.commitIteration Config.commitIteration
  extract_lets progressed count again phase
  let g : LoopFrame := { f with phase, count, pos := s.pos, log := s.log }
  have hg : g.phase.between = false := by
    show (if again then f.phase else if progressed || l.greedy then .exited else .stalled).between =
      false
    split
    · exact hphase
    · split <;> rfl
  have hlog : f.startLog ≤ s.log := Nat.le_trans hw.startLog_le hw.log_le
  have h := refines_replace hs htop hs.log_le (f := .loop g)
    ⟨hlog, Nat.le_refl _, fun h => absurd h (Bool.eq_false_iff.1 hg)⟩
    (show Nested p s.frames top g.originLog from LoopFrame.originLog_eq hg ▸ hn)
    (if again then Loop.body f.ip else l.after f.ip) s.pos
  rwa [Frame.entry, LoopFrame.entry_eq hg] at h

theorem refines_endIteration (hs : s.Sane p) (input : Array UInt8) (ip : Nat) :
    Refines p s (Machine.endIteration p input s ip)
      (Config.endIteration p input s.pos (spans s.captures s.log) s.stack ip) := by
  rcases topmost?_cases (Frame.isOfLoop ip) (Entry.isOfLoop ip) s.frames s.captures
      (fun f => isOfLoop_entry _ _ f) s.sp with ⟨hnone, hdrop, -⟩ |
      ⟨top, hsome, hlt, hof, hdrop, -, -⟩
  · simp only [Machine.endIteration, hnone, Config.endIteration, MachineState.stack, hdrop]
    exact refines_fail hs
  · cases hframe : s.frames.getD top .blank with
    | alternative => rw [hframe] at hof; cases hof
    | capture => rw [hframe] at hof; cases hof
    | loop f =>
      simp only [Machine.endIteration, hsome, hframe, Config.endIteration, MachineState.stack,
        hdrop, entries, Frame.entry]
      rw [hframe] at hof
      obtain rfl : f.ip = ip := of_decide_eq_true hof
      cases hfetch : p.fetch? f.ip with
      | none => exact .malformed
      | some x =>
        obtain ⟨i, n⟩ := x
        cases i with
        | loop l =>
          dsimp only
          split
          · next hl => exact refines_keepIteration hs hfetch hl
          · next hl =>
            have hwithin := (hs.nested.le (Nat.succ_le_of_lt hlt)).1
            rw [hframe] at hwithin
            exact refines_commitIteration hs input l hlt hframe
              (LoopFrame.Within.not_between hwithin hfetch (Bool.eq_false_iff.2 hl))
        | _ => exact refines_fail hs

/-! #### Execution -/

theorem refines_consume (hs : s.Sane p) (input : Array UInt8) (i : Instr) (next : Nat) :
    Refines p s
      (match input[s.pos]? with
        | some b =>
          if i.accepts b then MachineState.goto { s with pos := s.pos + 1 } next else s.fail
        | none => s.fail)
      (match input[s.pos]? with
        | some b =>
          if i.accepts b then .run next (s.pos + 1) (spans s.captures s.log) s.stack
          else .fail s.stack
        | none => .fail s.stack) := by
  cases input[s.pos]? with
  | none => exact refines_fail hs
  | some b =>
    dsimp only
    split
    · exact refines_move hs _ _
    · exact refines_fail hs

theorem refines_execute (hs : s.Sane p) (input : Array UInt8) :
    Refines p s (Machine.execute p input s)
      (Config.execute p input s.ip s.pos (spans s.captures s.log) s.stack) := by
  unfold Machine.execute Config.execute
  cases hfetch : p.fetch? s.ip with
  | none => exact .malformed
  | some x =>
    obtain ⟨i, n⟩ := x
    cases i with
    | accept => exact .accepted
    | inputStart =>
      dsimp only [gotoIf]
      by_cases h : s.pos = 0
      · rw [if_pos (decide_eq_true h), if_pos h]; exact refines_goto hs _
      · rw [if_neg (by simpa using h), if_neg h]; exact refines_fail hs
    | inputEnd =>
      dsimp only [gotoIf]
      by_cases h : s.pos = input.size
      · rw [if_pos (decide_eq_true h), if_pos h]; exact refines_goto hs _
      · rw [if_neg (by simpa using h), if_neg h]; exact refines_fail hs
    | split => exact refines_push hs (f := .alternative ..) (Nat.le_refl _) rfl rfl
    | jump => exact refines_goto hs _
    | captureStart => exact refines_push hs (f := .capture ..) trivial rfl rfl
    | captureEnd => exact refines_closeCapture hs _ _
    | loop l => exact refines_enterLoop hs input hfetch
    | loopEnd => exact refines_endIteration hs input _
    | anyByte | byte | bitmap | ranges => exact refines_consume hs input _ _

/-! #### Backtracking -/

section

variable {top : Nat} (hs : s.Sane p) (hsp : s.sp = top + 1) {f : LoopFrame}
  (hf : s.frames.getD top .blank = .loop f)
include hs hsp hf

theorem within_of_top :
    f.Within p s.log ∧ f.log ≤ s.captures.size ∧ Nested p s.frames top f.originLog := by
  have hnested := hs.nested
  rw [hsp, Nested, hf] at hnested
  obtain ⟨hw, hn⟩ := hnested
  exact ⟨hw, Nat.le_trans hw.log_le hs.log_le, hn⟩

/-- A frame is put back on top, and the machine goes on from a place to which the frame leads. -/
theorem refines_put {g : LoopFrame} (hg : g.Within p f.log) (horigin : g.originLog = f.originLog)
    (ip pos : Nat) :
    Refines p s
      (.running { s with
        mode := .executing, ip, pos, log := g.log
        frames := s.frames.setIfInBounds top (.loop g) })
      (.run ip pos (spans s.captures g.log)
        (.loop (g.entry s.captures) :: entries s.frames s.captures top)) := by
  obtain ⟨-, hlog, hnested⟩ := within_of_top hs hsp hf
  have htop : top < s.sp := by omega
  have hfloor : Nested p s.frames top ((Frame.loop g).floor g.log) := by
    show Nested p s.frames top g.originLog
    rw [horigin]
    exact hnested
  have h := refines_replace hs htop (Nat.le_trans hg.log_le hlog) (f := .loop g)
    { hg with log_le := Nat.le_refl _ } hfloor ip pos
  rwa [← hsp] at h

section

variable (hphase : f.phase.between = false)
include hphase

/-- The frame is put back with the start that it has. -/
theorem refines_putBack {g : LoopFrame} (hg : g.phase.between = false) (hstart : g.start = f.start)
    (hstartLog : g.startLog = f.startLog) (hle : g.startLog ≤ g.log) (hle' : g.log ≤ f.log)
    (ip pos : Nat) :
    Refines p s
      (.running { s with
        mode := .executing, ip, pos, log := g.log
        frames := s.frames.setIfInBounds top (.loop g) })
      (.run ip pos (spans s.captures g.log)
        (.loop { ip := g.ip, phase := g.phase, pos := g.pos, log := spans s.captures g.log
                 start := f.start, startLog := spans s.captures f.startLog, count := g.count } ::
          entries s.frames s.captures top)) := by
  have horigin : g.originLog = f.originLog := by
    rw [LoopFrame.originLog_eq hg, LoopFrame.originLog_eq hphase, hstartLog]
  have h := refines_put hs hsp hf (g := g)
    ⟨hle, hle', fun h => absurd h (Bool.eq_false_iff.1 hg)⟩ horigin ip pos
  rwa [LoopFrame.entry_eq hg, hstart, hstartLog] at h

theorem refines_retryByteLoop (input : Array UInt8) (l : Loop) :
    Refines p s (Machine.retryByteLoop p input s l top f)
      (Config.retryByteLoop p input (entries s.frames s.captures top) l (f.entry s.captures)) := by
  obtain ⟨hw, hlog, hnested⟩ := within_of_top hs hsp hf
  have hput (count pos : Nat) := refines_putBack hs hsp hf hphase (g := { f with count }) hphase
    rfl rfl hw.startLog_le (Nat.le_refl _) (l.after f.ip) pos
  rw [LoopFrame.entry_eq hphase]
  unfold Machine.retryByteLoop Config.retryByteLoop
  extract_lets
  split
  · dsimp only
    split
    · exact refines_resume hs (by omega) hlog (hnested.mono hw.originLog_le) _ _
    · exact hput _ _
  · cases p.fetch? (Loop.body f.ip) with
    | none => exact .malformed
    | some x =>
      cases input[f.start + f.count]? with
      | none => exact refines_drop hs hsp
      | some b =>
        dsimp only
        split
        · exact hput _ _
        · exact refines_drop hs hsp

theorem refines_retryLoop (input : Array UInt8) (l : Loop) :
    Refines p s (Machine.retryLoop input s l top f)
      (Config.retryLoop input (entries s.frames s.captures top) l (f.entry s.captures)) := by
  obtain ⟨hw, -, -⟩ := within_of_top hs hsp hf
  have hput (g : LoopFrame) (hg : g.phase.between = false) := refines_putBack hs hsp hf hphase hg
  rw [LoopFrame.entry_eq hphase]
  unfold Machine.retryLoop Config.retryLoop
  extract_lets
  cases f.phase with
  | iterating =>
    dsimp only
    split
    · exact hput { f with phase := .exited } rfl rfl rfl hw.startLog_le (Nat.le_refl _) _ _
    · exact refines_drop hs hsp
  | exited =>
    dsimp only
    split
    · split
      · split
        · exact hput { f with count := 0, pos := f.start, log := f.startLog } hphase rfl rfl
            (Nat.le_refl _) hw.startLog_le _ _
        · exact hput { f with
            count := 0, pos := f.start, log := f.startLog, phase := .replaying (f.count - 1) } rfl
            rfl rfl (Nat.le_refl _) hw.startLog_le _ _
      · exact refines_drop hs hsp
    · split
      · exact hput { f with phase := .iterating } rfl rfl rfl hw.startLog_le (Nat.le_refl _) _ _
      · exact refines_drop hs hsp
  | replaying | stalled | boundary | counter => exact refines_drop hs hsp

end

theorem refines_retryBoundary (hphase : f.phase = .boundary) (l : Loop) :
    Refines p s (Machine.retryBoundary s l top f)
      (Config.retryBoundary (entries s.frames s.captures top) l (f.entry s.captures)) := by
  obtain ⟨hw, hlog, hnested⟩ := within_of_top hs hsp hf
  have hbetween : f.phase.between = true := by
    rw [hphase]
    rfl
  have horigin : f.origin = f.pos ∧ f.originLog = f.log := ⟨if_pos hbetween, if_pos hbetween⟩
  unfold Machine.retryBoundary Config.retryBoundary
  split
  · exact refines_resume hs (by omega) hlog (hnested.mono hw.originLog_le) _ _
  · -- The frame stays between iterations, so its entry leads back to `pos`, as it did.
    have h := refines_put hs hsp hf (g := { f with phase := .counter })
      ⟨hw.startLog_le, Nat.le_refl _, fun _ => hw.between hbetween⟩ horigin.2.symm
      (Loop.body f.ip) f.pos
    rwa [LoopFrame.entry, horigin.1, horigin.2]

end

theorem refines_backtrack (hs : s.Sane p) (input : Array UInt8) :
    Refines p s (Machine.backtrack p input s) (Config.backtrack p input s.stack) := by
  unfold Machine.backtrack
  cases hsp : s.sp with
  | zero =>
    rw [MachineState.stack, hsp, entries]
    exact .exhausted
  | succ top =>
    rw [MachineState.stack, hsp, entries]
    dsimp only
    have hnested := hs.nested
    rw [hsp] at hnested
    cases hf : s.frames.getD top .blank with
    | alternative ip pos log =>
      rw [Nested, hf] at hnested
      exact refines_resume hs (by omega) (Nat.le_trans hnested.1 hs.log_le) hnested.2 _ _
    | capture => exact refines_drop hs hsp
    | loop f =>
      dsimp only [Frame.entry, LoopFrame.entry, Config.backtrack]
      split
      · exact refines_drop hs hsp
      · next hcounter =>
        cases p.fetch? f.ip with
        | none => exact .malformed
        | some x =>
          obtain ⟨i, n⟩ := x
          cases i with
          | loop l =>
            dsimp only
            split
            · next hphase => exact refines_retryBoundary hs hsp hf hphase l
            · next hboundary =>
              have hphase : f.phase.between = false := LoopPhase.between_eq_false hcounter hboundary
              split
              · exact refines_retryByteLoop hs hsp hf hphase input l
              · exact refines_retryLoop hs hsp hf hphase input l
          | _ => exact refines_drop hs hsp

/-- **A step of the machine is a step of its configuration**, or a buffer is full that this step
overfills. -/
theorem refines_step (hs : s.Sane p) (input : Array UInt8) :
    Refines p s (Machine.step p input s) (Config.step p input s.config) := by
  unfold Machine.step MachineState.config
  cases s.mode with
  | executing => exact refines_execute hs input
  | backtracking => exact refines_backtrack hs input

end BoundedRegex
