import BoundedRegex.Proofs.FixedCaptures
import BoundedRegex.Proofs.Match.Discipline

/-!
# Finding the right frame

To close a capture, or to end an iteration, the machine looks for the topmost frame of the capture
or of the loop.  There may be many on the stack: of iterations before, of loops that have been left,
and of captures that have been closed.

* `Machine.Follows.agrees`: in the code of a pattern, each state of an attempt agrees with its
  history.
* `Compiler.stack_discipline`: so the frame that is found is the one that was pushed where the path
  has the capture opened, or the one of the iteration in progress, and an iteration consumes
  something.
-/

namespace BoundedRegex

/-! ### States with a history -/

namespace MachineState

variable {p : Program} {h : History} {s : MachineState} {frames below : List Traced} {e : Entry}
  {o : Origin}

/-- The topmost frame of a capture is the one that was pushed where the path has opened the capture,
which it has not closed since. -/
def FindsOpening (p : Program) (h : History) (index : UInt8) (s : MachineState) : Prop :=
  ∃ top v, topmost? (Frame.opens index) s.frames s.sp = some top ∧
    s.frames.getD top .blank = .capture index v.pos ∧ p.opens index v = true ∧
    h.path.find? (fun w => p.opens index w || p.closes index w) = some v ∧
    h.pushedAt top = some v.time

/-- The topmost frame of the loop at an address is that of the iteration in progress: it has the
offset at which the path has that begin, and something has been consumed since.  If the loop keeps
frames, it was pushed there; any other loop has one frame, which was pushed where the path has
entered the loop, and which is iterating or replaying. -/
def FindsIteration (p : Program) (h : History) (target : Nat) (s : MachineState) : Prop :=
  ∃ top f l size u, topmost? (Frame.isOfLoop target) s.frames s.sp = some top ∧
    s.frames.getD top .blank = .loop f ∧ p.fetch? target = some (.loop l, size) ∧
    h.path.find? (p.begins target) = some u ∧ f.pos = u.pos ∧ f.pos < s.pos ∧
    (l.keepsFrames = true → h.pushedAt top = some u.time) ∧
    (l.keepsFrames = false →
      (f.phase = .iterating ∨ ∃ target, f.phase = .replaying target ∧ f.count < target) ∧
      ∃ v, h.path.find? (fun w => w.ip = target) = some v ∧ f.start = v.pos ∧
        h.pushedAt top = some v.time)

/-- The step from a state does not give up the path. -/
def GoesOn (p : Program) (input : Array UInt8) (s : MachineState) : Prop :=
  ∀ u, Machine.step p input s = .running u → u.mode = .executing

/-- Looking for the topmost frame that something holds of. -/
theorem topmost?_of_dropWhile {P : Frame → Bool} {Q : Entry → Bool}
    (hPQ : ∀ f : Frame, Q (f.entry s.captures) = P f) (hstack : s.stack = frames.map Prod.fst)
    (horigins : h.origins = frames.map Prod.snd)
    (hdrop : frames.dropWhile (fun t => !Q t.1) = (e, o) :: below) :
    ∃ top, topmost? P s.frames s.sp = some top ∧
      (s.frames.getD top .blank).entry s.captures = e ∧ h.pushedAt top = some o.time := by
  have hfound : s.stack.dropWhile (fun e => !Q e) = e :: below.map Prod.fst := by
    rw [hstack, List.dropWhile_map]
    exact congrArg (List.map Prod.fst) hdrop
  rcases topmost?_cases P Q s.frames s.captures hPQ s.sp with
    ⟨-, hnone, -⟩ | ⟨top, htop, -, -, hsome, -⟩
  · cases hnone.symm.trans hfound
  · obtain ⟨he, hbelow⟩ := List.cons.inj (hsome.symm.trans hfound)
    have hlength : top = below.length := by
      rw [← length_entries s.frames s.captures top, hbelow, List.length_map]
    rw [← List.takeWhile_append_dropWhile (p := fun t => !Q t.1) (l := frames), hdrop] at horigins
    exact ⟨top, htop, he, hlength ▸ History.pushedAt_of_origins horigins⟩

end MachineState

/-- What comes of a step from a configuration agrees with the history after it. -/
def StepResult.Agrees (p : Program) (h : History) (c : Config) : StepResult → Prop
  | running s => s.config.Agrees p (h.next p c s.config)
  | accepted s => (Config.failing s.stack).Agrees p (h.next p c (.failing s.stack))
  | exhausted _ | overflowed _ _ | malformed _ => True

section

variable {p : Program} {input : Array UInt8} {s t : MachineState} {h : History} {slots : Nat}
  (hp : p.Sound) (hs : p.Structured) (hb : p.Bracketed)
include hp hs hb

theorem MachineState.agrees_step (hsane : s.Sane p) (hagrees : s.config.Agrees p h) :
    (Machine.step p input s).Agrees p h s.config := by
  have href := refines_step hsane input
  have hnext : (s.config.step p input).Agrees p h s.config := Config.agrees_step hp hb hs hagrees
  generalize s.config.step p input = next at href hnext
  generalize Machine.step p input s = result at href ⊢
  cases href with
  | running _ hc =>
    subst hc
    exact hnext
  | accepted => exact hnext
  | exhausted | malformed | scratch | log => trivial

/-- **What an attempt reaches agrees with its history.** -/
theorem Machine.Follows.agrees (hf : Machine.Follows p input s t h) (hregular : s.Regular p slots)
    (hstart : s.config.Agrees p .start) : t.config.Agrees p h := by
  induction hf with
  | start => exact hstart
  | step hf hstep ih | resume hf hstep ih =>
    have hsane := (hregular.of_reaches hp hs hf.reaches).sane
    have hnext : (Machine.step p input _).Agrees p _ _ :=
      MachineState.agrees_step hp hs hb hsane ih
    rw [hstep] at hnext
    exact hnext

end

/-- At the start there is nothing to agree with. -/
theorem MachineState.agrees_initial {p : Program} (hzero : p.Starts 0) (start : Nat)
    (frames : Array Frame) (captures : Array Capture) (peak : Nat) :
    (initial start frames captures peak).config.Agrees p .start := by
  rw [config_initial]
  exact ⟨[], rfl, rfl, trivial, hzero, nofun, fun _ hlo => absurd hlo (Nat.not_lt_zero _)⟩

namespace MachineState

variable {p : Program} {h : History} {s : MachineState} {size : Nat}

/-- No loop that has a frame is over for good. -/
theorem active (hagrees : s.config.Agrees p h) {k : Nat} (hk : k < s.sp) {f : LoopFrame}
    (hframe : s.frames.getD k .blank = .loop f) : f.phase ≠ .stalled := by
  obtain ⟨frames, hstack, -, hframes, -⟩ := hagrees
  have hmem : (s.frames.getD k .blank).entry s.captures ∈ s.stack := mem_entries hk
  rw [hframe, ← stack_config, hstack] at hmem
  obtain ⟨⟨_, o⟩, hmem, rfl⟩ := List.mem_map.1 hmem
  obtain ⟨above, below, rfl⟩ := List.append_of_mem hmem
  obtain ⟨l, size, -, hentry⟩ := (hframes.of_suffix (List.suffix_append above _)).1
  exact hentry.active

section

variable (hb : p.Bracketed) (hagrees : s.config.Agrees p h) (hmode : s.mode = .executing)
include hb hagrees hmode

theorem findsOpening (hs : p.Structured) {index : UInt8}
    (hend : p.fetch? s.ip = some (.captureEnd index, size)) : s.FindsOpening p h index := by
  rw [config_of_executing hmode] at hagrees
  obtain ⟨frames, hstack, horigins, hframes, hgo⟩ := hagrees
  obtain ⟨v, o, below, hdrop, htime, hopens, hfind⟩ := hgo.closing hframes hb hs hend
  obtain ⟨top, htop, hentry, hpushed⟩ :=
    topmost?_of_dropWhile (opens_entry s.captures index) hstack horigins hdrop
  refine ⟨top, v, htop, ?_, hopens, hfind, htime ▸ hpushed⟩
  generalize s.frames.getD top .blank = f at hentry
  cases f with
  | capture =>
    cases hentry
    rfl
  | alternative | loop => cases hentry

theorem findsIteration (hp : p.Sound) (hregular : s.config.Regular p) {offset : Int16}
    (hend : p.fetch? s.ip = some (.loopEnd offset, size)) :
    s.FindsIteration p h (offsetTarget s.ip offset) := by
  rw [config_of_executing hmode] at hagrees hregular
  obtain ⟨frames, hstack, horigins, hframes, hgo⟩ := hagrees
  have hstack : s.stack = frames.map Prod.fst := hstack
  obtain ⟨l, n, g, o, below, hf, htarget, hbracket, hdrop, hentry, hpath, hpos⟩ :=
    hgo.ending hframes hb hp hend
  obtain ⟨top, htop, htopentry, hpushed⟩ :=
    topmost?_of_dropWhile (isOfLoop_entry s.captures _) hstack horigins hdrop
  obtain ⟨u, hfind, hu, hkept, hcommitted⟩ := hentry.began hp hf hbracket hgo.visited hpath
  have hunderway (hk : l.keepsFrames = false) : g.Underway l := by
    obtain ⟨g', below', hdrop', hunderway⟩ := hregular.1.attended g.ip l
      ⟨hbracket.starts, ⟨n, hf⟩, hb.lt hbracket, hbracket.lt_after hf⟩ hk
      (hbracket.singleByte hf)
    have hfound : s.stack.dropWhile (fun e => !e.isOfLoop g.ip) =
        .loop g :: below.map Prod.fst := by
      rw [hstack, List.dropWhile_map, htarget]
      exact congrArg (List.map Prod.fst) hdrop
    cases hfound.symm.trans hdrop'
    exact hunderway
  rw [htarget] at hf hfind hcommitted
  generalize hframe : s.frames.getD top .blank = frame at htopentry
  cases frame with
  | alternative | capture => cases htopentry
  | loop f =>
    cases htopentry
    refine ⟨top, f, l, n, u, htop, hframe, hf, hfind, hu, hpos, fun hk => hkept hk ▸ hpushed,
      fun hk => ?_⟩
    have hphase : f.phase = .iterating ∨ ∃ target, f.phase = .replaying target ∧ f.count < target :=
      (hunderway hk).imp And.left fun ⟨target, hphase, hlt, _⟩ => ⟨target, hphase, hlt⟩
    have hbetween : f.phase.between = false := by
      obtain hphase | ⟨_, hphase, -⟩ := hphase <;> rw [hphase] <;> rfl
    obtain ⟨v, hv, hstart, htime⟩ := hcommitted hk
    exact ⟨hphase, v, hv, (f.origin_eq hbetween).symm.trans hstart, htime ▸ hpushed⟩

end

section

variable {input : Array UInt8} (hmode : s.mode = .executing)
include hmode

theorem FindsOpening.goesOn {index : UInt8} (hfinds : s.FindsOpening p h index)
    (hend : p.fetch? s.ip = some (.captureEnd index, size)) : s.GoesOn p input := by
  obtain ⟨top, v, htop, hframe, -⟩ := hfinds
  intro u hu
  simp only [Machine.step, hmode, Machine.execute, hend, Machine.closeCapture, htop, hframe] at hu
  split at hu
  · cases hu
    rfl
  · cases hu

theorem FindsIteration.goesOn {offset : Int16}
    (hfinds : s.FindsIteration p h (offsetTarget s.ip offset))
    (hend : p.fetch? s.ip = some (.loopEnd offset, size)) : s.GoesOn p input := by
  obtain ⟨top, f, l, n, v, htop, hframe, hf, -⟩ := hfinds
  intro u hu
  simp only [Machine.step, hmode, Machine.execute, hend, Machine.endIteration, htop, hframe, hf]
    at hu
  split at hu
  · rw [Machine.keepIteration] at hu
    extract_lets at hu
    split at hu
    · rw [push_eq] at hu
      split at hu
      · cases hu
        rfl
      · cases hu
    · cases hu
      rfl
  · cases hu
    rfl

end

end MachineState

/-! ### Compiled patterns -/

namespace Compiler

variable {c : Compiler} {pattern buffer : List UInt8} {r : Regex}

/-- **Whatever ends a bracket finds the frame of it.**  Each state through which an attempt may
pass, at any offset of any input, with any buffers and whatever the callback does, has a history.
No loop that has a frame is over for good.  Where a capture is closed, the frame that is found was
pushed where the path has opened the capture, which it has not closed since.  Where an iteration
ends, the frame that is found is that of the iteration in progress, and the machine is beyond the
offset that it remembers.  Neither gives up the path. -/
theorem stack_discipline (h : c.compile pattern buffer = .ok r) (input : Array UInt8) (start : Nat)
    (frames : Array Frame) (captures : Array Capture) (peak : Nat) :
    (∀ s, Machine.Reaches (.ofCode r.code) input (.initial start frames captures peak) s →
      ∃ hist, Machine.Follows (.ofCode r.code) input (.initial start frames captures peak) s hist) ∧
    ∀ s hist, Machine.Follows (.ofCode r.code) input (.initial start frames captures peak) s hist →
      (∀ k < s.sp, ∀ f, s.frames.getD k .blank = .loop f → f.phase ≠ .stalled) ∧
      (s.mode = .executing →
        (∀ index size, (Program.ofCode r.code).fetch? s.ip = some (.captureEnd index, size) →
          s.FindsOpening (.ofCode r.code) hist index ∧ s.GoesOn (.ofCode r.code) input) ∧
        ∀ offset size, (Program.ofCode r.code).fetch? s.ip = some (.loopEnd offset, size) →
          s.FindsIteration (.ofCode r.code) hist (offsetTarget s.ip offset) ∧
            s.GoesOn (.ofCode r.code) input) := by
  obtain ⟨e, n, hderives, hwf, hcode, -, -⟩ := c.compile_derives h
  have hp : (Program.ofCode r.code).Sound := (admissible_of_compile h).sound r.code_le
  have hs := structured_of_compile h hderives hcode
  have hb : (Program.ofCode r.code).Bracketed :=
    Expr.bracketed_code (p := .ofCode r.code) hcode r.code_le hwf hp hs
  have hzero := (Expr.laidOut_of_code (p := .ofCode r.code) hcode r.code_le).2.2.2
  refine ⟨fun s hreaches => hreaches.follows, fun s hist hfollows => ?_⟩
  have hregular := MachineState.regular_initial hzero start frames captures peak
  have hagrees := hfollows.agrees hp hs hb hregular
    (MachineState.agrees_initial hzero start frames captures peak)
  refine ⟨fun k hk f hframe => ?_, fun hmode => ⟨fun index size hend => ?_,
    fun offset size hend => ?_⟩⟩
  · exact MachineState.active hagrees hk hframe
  · have hfinds := MachineState.findsOpening hb hagrees hmode hs hend
    exact ⟨hfinds, hfinds.goesOn hmode hend⟩
  · have hfinds := MachineState.findsIteration hb hagrees hmode hp
      (hregular.of_reaches hp hs hfollows.reaches).config hend
    exact ⟨hfinds, hfinds.goesOn hmode hend⟩

/-- On `aa`, where `<a|b>{2}` closes its capture for the second time, there are two frames of it,
and the upper one is found, which the second iteration has pushed.  Where that ends, the frame of
the loop is found that was pushed at the end of the first. -/
theorem stack_discipline_branching :
    ({} : Compiler).compile [0x3c, 0x61, 0x7c, 0x62, 0x3e, 0x7b, 0x32, 0x7d]
        (List.replicate 39 0) = .ok .branching ∧
      (∃ s hist v, Machine.Follows (.ofCode Regex.branching.code) #[0x61, 0x61]
          (.initial 0 (Array.replicate 6 .blank) (Array.replicate 2 .blank) 0) s hist ∧
        (s.ip = 20 ∧ s.frames.getD 1 .blank = .capture 0 0 ∧
          s.frames.getD 4 .blank = .capture 0 1) ∧
        topmost? (Frame.opens 0) s.frames s.sp = some 4 ∧
        hist.path.find? (fun w => Program.opens (.ofCode Regex.branching.code) 0 w ||
          Program.closes (.ofCode Regex.branching.code) 0 w) = some v ∧
        v.pos = 1 ∧ hist.pushedAt 4 = some v.time) ∧
      ∃ s hist, Machine.Follows (.ofCode Regex.branching.code) #[0x61, 0x61]
          (.initial 0 (Array.replicate 6 .blank) (Array.replicate 2 .blank) 0) s hist ∧
        (s.ip = 23 ∧ s.pos = 2 ∧ topmost? (Frame.isOfLoop 0) s.frames s.sp = some 3) ∧
        s.FindsIteration (.ofCode Regex.branching.code) hist 0 := by
  have hclosing : (Matcher.trace (.ofCode Regex.branching.code) #[0x61, 0x61] 0 Matcher.firstOnly
      11 () (.initial 0 (Array.replicate 6 .blank) (Array.replicate 2 .blank) 0)).map
        (fun t => (t.2.mode, t.2.ip, t.2.frames.getD 1 .blank, t.2.frames.getD 4 .blank,
          topmost? (Frame.opens 0) t.2.frames t.2.sp)) =
      some (.executing, 20, .capture 0 0, .capture 0 1, some 4) := by
    decide +kernel
  have hending : (Matcher.trace (.ofCode Regex.branching.code) #[0x61, 0x61] 0 Matcher.firstOnly
      12 () (.initial 0 (Array.replicate 6 .blank) (Array.replicate 2 .blank) 0)).map
        (fun t => (t.2.mode, t.2.ip, t.2.pos, topmost? (Frame.isOfLoop 0) t.2.frames t.2.sp)) =
      some (.executing, 23, 2, some 3) := by
    decide +kernel
  obtain ⟨hhistory, hfinds⟩ := Compiler.stack_discipline Compiler.compile_branching #[0x61, 0x61] 0
    (Array.replicate 6 .blank) (Array.replicate 2 .blank) 0
  refine ⟨Compiler.compile_branching, ?_, ?_⟩
  · obtain ⟨⟨_, s⟩, hs, hstate⟩ := Option.map_eq_some_iff.1 hclosing
    simp only [Prod.mk.injEq] at hstate
    obtain ⟨hmode, hip, hlower, hupper, htop⟩ := hstate
    obtain ⟨hist, hfollows⟩ := hhistory s (Matcher.reaches_of_trace hs)
    obtain ⟨⟨top, v, htop', hframe, -, hfind, hpushed⟩, -⟩ :=
      ((hfinds s hist hfollows).2 hmode).1 0 3 (by rw [hip]; decide +kernel)
    obtain rfl : top = 4 := Option.some.inj (htop'.symm.trans htop)
    have hv : Frame.capture 0 v.pos = .capture 0 1 := hframe.symm.trans hupper
    exact ⟨s, hist, v, hfollows, ⟨hip, hlower, hupper⟩, htop, hfind, (Frame.capture.inj hv).2,
      hpushed⟩
  · obtain ⟨⟨_, s⟩, hs, hstate⟩ := Option.map_eq_some_iff.1 hending
    simp only [Prod.mk.injEq] at hstate
    obtain ⟨hmode, hip, hpos, htop⟩ := hstate
    obtain ⟨hist, hfollows⟩ := hhistory s (Matcher.reaches_of_trace hs)
    obtain ⟨hiteration, -⟩ :=
      ((hfinds s hist hfollows).2 hmode).2 (-23) 4 (by rw [hip]; decide +kernel)
    rw [hip] at hiteration
    exact ⟨s, hist, hfollows, ⟨hip, hpos, htop⟩, hiteration⟩

end Compiler

end BoundedRegex
