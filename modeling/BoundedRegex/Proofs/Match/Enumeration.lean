import BoundedRegex.Proofs.Match.Implements
import BoundedRegex.Proofs.Match.Runs

/-!
# Whole attempts on code that enumerates points

`Enumerates` says what an attempt comes to on configurations: it accepts at some points in turn,
with a bound on the frames that are alive at any time, and then has nothing left to try.  A program
that holds the code of an expression, with an instruction behind it that accepts, enumerates the
results of the expression.

* All that such an attempt reaches keeps to the bound, so that as many frames never run out
  (`Enumerates.of_reaches`, `Enumerates.run_within`).
* With enough steps the callback is given the points one by one (`Enumerates.settles`), unless
  the slots for captures run out.
-/

namespace BoundedRegex

/-- From `c`, an attempt accepts at some points in turn and then ends, with at most `d` frames
alive. -/
inductive Enumerates (p : Program) (input : Array UInt8) (d : Nat) :
    Config → List Point → Prop where
  | done {c : Config} (h : Steps p input d c (.failing [])) : Enumerates p input d c []
  | found {c c' : Config} {s : Point} {stack : List Entry} {rest : List Point}
      (h : Steps p input d c c') (ha : c'.step p input = .accepted s.pos s.log stack)
      (hd : stack.length ≤ d) (t : Enumerates p input d (.failing stack) rest) :
      Enumerates p input d c (s :: rest)

variable {p : Program} {input : Array UInt8} {d : Nat} {c c' : Config} {points : List Point}

theorem Enumerates.of_offers {b n r : Nat} {ok : Entry → Prop}
    (hacc : p.fetch? b = some (.accept, n)) (h : Offers p input d b ok r [] c points) :
    Enumerates p input d c points := by
  induction h with
  | none h => exact .done h
  | @some c s F rest h _ _ _ _ ih =>
    rw [List.append_nil] at h ih
    have hd : F.length ≤ d := h.length_right
    exact .found h (by simp only [Config.step, Config.execute, hacc]) hd ih

/-- A program that holds the code of an expression enumerates its results. -/
theorem Expr.LaidOut.enumerates {e : Expr} {b n start : Nat} (h : e.LaidOut p 0 b)
    (hwf : e.WellFormed) (hacc : p.fetch? b = some (.accept, n)) (hstart : start ≤ input.size)
    (hd : e.peak ≤ d) :
    Enumerates p input d (.running 0 start [] []) (e.results input ⟨start, []⟩) :=
  .of_offers hacc (e.offers_results hwf h (s := ⟨start, []⟩) hstart (by simpa using hd))

namespace Enumerates

/-! ### Steps -/

theorem length_le (h : Enumerates p input d c points) : c.stack.length ≤ d := by
  cases h with
  | done h => exact h.length_left
  | found h _ _ _ => exact h.length_left

theorem going (h : Enumerates p input d c points) (hs : c.step p input = .going c') :
    Enumerates p input d c' points := by
  cases h with
  | done h =>
    cases h with
    | refl => cases hs
    | more _ hs' t => rw [hs] at hs'; cases hs'; exact .done t
  | found h ha hd t =>
    cases h with
    | refl => rw [hs] at ha; cases ha
    | more _ hs' t' => rw [hs] at hs'; cases hs'; exact .found t' ha hd t

theorem accepted {pos : Nat} {log : List Capture} {stack : List Entry}
    (h : Enumerates p input d c points) (hs : c.step p input = .accepted pos log stack) :
    ∃ rest, points = ⟨pos, log⟩ :: rest ∧ Enumerates p input d (.failing stack) rest := by
  cases h with
  | done h =>
    cases h with
    | refl => cases hs
    | more _ hs' _ => rw [hs] at hs'; cases hs'
  | found h ha hd t =>
    cases h with
    | refl => rw [hs] at ha; cases ha; exact ⟨_, rfl, t⟩
    | more _ hs' _ => rw [hs] at hs'; cases hs'

theorem not_malformed (h : Enumerates p input d c points) : c.step p input ≠ .malformed := by
  intro hs
  cases h with
  | done h =>
    cases h with
    | refl => cases hs
    | more _ hs' _ => rw [hs] at hs'; cases hs'
  | found h ha hd t =>
    cases h with
    | refl => rw [hs] at ha; cases ha
    | more _ hs' _ => rw [hs] at hs'; cases hs'

theorem exhausted (h : Enumerates p input d c points) (hs : c.step p input = .exhausted) :
    points = [] := by
  cases h with
  | done => rfl
  | found h ha hd t =>
    cases h with
    | refl => rw [hs] at ha; cases ha
    | more _ hs' _ => rw [hs] at hs'; cases hs'

end Enumerates

/-! ### States -/

/-- What a step from `s` comes to, in an attempt that has some points still to accept at, with as
many frames as it may have alive. -/
inductive Advances (p : Program) (input : Array UInt8) (d : Nat) (s : MachineState) :
    StepResult → List Point → Prop where
  | running {u : MachineState} {points : List Point} (hu : u.Sane p)
      (h : Enumerates p input d u.config points) (hf : u.frames.size = s.frames.size)
      (hk : u.captures.size = s.captures.size) (hp : u.peak ≤ Nat.max s.peak d) :
      Advances p input d s (.running u) points
  | accepted {rest : List Point} (h : Enumerates p input d (.failing s.stack) rest) :
      Advances p input d s (.accepted s) (⟨s.pos, spans s.captures s.log⟩ :: rest)
  | exhausted : Advances p input d s (.exhausted s) []
  | overflowed {points : List Point} :
      Advances p input d s (.overflowed (.captureBufferExhausted s.captures.size) s) points

theorem MachineState.Sane.backtracking {s : MachineState} (hs : s.Sane p) :
    ({ s with mode := .backtracking } : MachineState).Sane p :=
  ⟨hs.sp_le, hs.log_le, hs.sp_le_peak, hs.nested⟩

namespace Enumerates

variable {s t : MachineState}

/-- One step: the frames do not run out. -/
theorem advances (hs : s.Sane p) (h : Enumerates p input d s.config points)
    (hd : d ≤ s.frames.size) : Advances p input d s (Machine.step p input s) points := by
  have href := refines_step hs input
  cases hnext : s.config.step p input with
  | going c =>
    rw [hnext] at href
    have hgo := h.going hnext
    have hle := hgo.length_le
    generalize Machine.step p input s = result at href ⊢
    cases href with
    | @running u _ hu hc hf hk hp _ =>
      rw [← hc, u.length_stack_config] at hle
      refine .running hu (hc ▸ hgo) hf hk ?_
      rw [hp]
      exact Nat.max_le.2 ⟨Nat.le_max_left .., Nat.le_trans hle (Nat.le_max_right ..)⟩
    | scratch hsp hc => omega
    | log => exact .overflowed
  | accepted pos log stack =>
    rw [hnext] at href
    generalize Machine.step p input s = result at href ⊢
    cases href with
    | accepted =>
      obtain ⟨rest, rfl, hrest⟩ := h.accepted hnext
      exact .accepted hrest
  | exhausted =>
    rw [hnext] at href
    generalize Machine.step p input s = result at href ⊢
    cases href with
    | exhausted =>
      obtain rfl := h.exhausted hnext
      exact .exhausted
  | malformed => exact absurd hnext h.not_malformed

/-- All that an attempt reaches goes on as the attempt does. -/
theorem of_reaches (hs : s.Sane p) (h : Enumerates p input d s.config points)
    (hd : d ≤ s.frames.size) (ht : Machine.Reaches p input s t) :
    t.Sane p ∧ (∃ rest, Enumerates p input d t.config rest) ∧ t.frames.size = s.frames.size ∧
      t.peak ≤ Nat.max s.peak d := by
  induction ht with
  | refl => exact ⟨hs, ⟨points, h⟩, rfl, Nat.le_max_left ..⟩
  | @step t u _ hstep ih =>
    obtain ⟨ht, ⟨rest, henum⟩, hframes, hpeak⟩ := ih
    have hadv := henum.advances ht (hframes ▸ hd)
    rw [hstep] at hadv
    cases hadv with
    | running hu hrest hf _ hp =>
      exact ⟨hu, ⟨rest, hrest⟩, hf.trans hframes,
        Nat.le_trans hp (Nat.max_le.2 ⟨hpeak, Nat.le_max_right ..⟩)⟩
  | @resume t u _ hstep ih =>
    obtain ⟨ht, ⟨rest, henum⟩, hframes, hpeak⟩ := ih
    have hadv := henum.advances ht (hframes ▸ hd)
    rw [hstep] at hadv
    cases hadv with
    | accepted hrest => exact ⟨ht.backtracking, ⟨_, hrest⟩, hframes, hpeak⟩

/-! ### Attempts -/

section

variable {σ : Type} (f : Callback σ) (start limit : Nat)

/-- An attempt with enough frames never runs out of them, however long it is. -/
theorem run_within (hs : s.Sane p) (h : Enumerates p input d s.config points)
    (hd : d ≤ s.frames.size) (steps : Nat) (gathered : σ) :
    (∀ capacity, (Matcher.run p input start limit f steps gathered s).1 ≠
      .error (.scratchExhausted capacity)) ∧
    (Matcher.run p input start limit f steps gathered s).2.2.frames.size = s.frames.size ∧
    (Matcher.run p input start limit f steps gathered s).2.2.peak ≤ Nat.max s.peak d := by
  induction steps generalizing s points gathered with
  | zero => exact ⟨fun _ => nofun, rfl, Nat.le_max_left ..⟩
  | succ steps ih =>
    have hadv := h.advances hs hd
    rw [Matcher.run]
    generalize Machine.step p input s = result at hadv ⊢
    cases hadv with
    | running hu hrest hf _ hp =>
      obtain ⟨hne, hframes, hpeak⟩ := ih hu hrest (hf ▸ hd) gathered
      exact ⟨hne, hframes.trans hf,
        Nat.le_trans hpeak (Nat.max_le.2 ⟨hp, Nat.le_max_right ..⟩)⟩
    | accepted hrest =>
      dsimp only
      split
      · exact ⟨fun _ => nofun, rfl, Nat.le_max_left ..⟩
      · exact ih hs.backtracking hrest hd _
    | exhausted => exact ⟨fun _ => nofun, rfl, Nat.le_max_left ..⟩
    | overflowed => exact ⟨fun _ => nofun, rfl, Nat.le_max_left ..⟩

end

end Enumerates

/-- The match that a point makes with a start. -/
def Point.toMatch (start : Nat) (s : Point) : Match :=
  { start, stop := s.pos, captures := s.log }

theorem MachineState.toMatch_eq (s : MachineState) (start : Nat) :
    s.toMatch start = Point.toMatch start ⟨s.pos, spans s.captures s.log⟩ := by
  simp [toMatch, Point.toMatch, spans]

/-- What a callback keeps up on the matches of an attempt, the attempt keeps up, whatever its buffers
and however long it is; and the match with which it ends is one of them. -/
theorem Enumerates.run_keeps {σ : Type} (f : Callback σ) (start limit : Nat) {Keeps : σ → Prop}
    {s : MachineState} (hs : s.Sane p) (h : Enumerates p input d s.config points)
    (hf : ∀ gathered, ∀ t ∈ points, Keeps gathered → Keeps (f gathered (t.toMatch start)).1)
    (steps : Nat) {gathered : σ} (hg : Keeps gathered) :
    Keeps (Matcher.run p input start limit f steps gathered s).2.1 ∧
      ∀ found, (Matcher.run p input start limit f steps gathered s).1 = .ok (some found) →
        ∃ t ∈ points, found = t.toMatch start := by
  induction steps generalizing s points gathered with
  | zero => exact ⟨hg, nofun⟩
  | succ steps ih =>
    have href := refines_step hs input
    generalize hnext : s.config.step p input = next at href
    rw [Matcher.run]
    generalize Machine.step p input s = result at href ⊢
    cases href with
    | running hu hc => exact ih hu (hc ▸ h.going hnext) hf hg
    | accepted =>
      obtain ⟨rest, rfl, hrest⟩ := h.accepted hnext
      have hkeeps := hf gathered _ List.mem_cons_self hg
      dsimp only
      rw [s.toMatch_eq]
      generalize f gathered _ = answer at hkeeps ⊢
      obtain ⟨gathered', action⟩ := answer
      cases action with
      | goOn =>
        obtain ⟨hkeeps', hfound⟩ := ih hs.backtracking hrest
          (fun g t ht => hf g t (List.mem_cons_of_mem _ ht)) hkeeps
        refine ⟨hkeeps', fun found hok => ?_⟩
        obtain ⟨t, ht, hfound⟩ := hfound found hok
        exact ⟨t, List.mem_cons_of_mem _ ht, hfound⟩
      | stop =>
        refine ⟨hkeeps, fun found hok => ?_⟩
        cases hok
        exact ⟨_, List.mem_cons_self, rfl⟩
    | exhausted | malformed | scratch | log => exact ⟨hg, nofun⟩

/-- From a configuration, `n` steps are enough for an attempt to give some points to its
callback. -/
def Settles (p : Program) (input : Array UInt8) (d : Nat) (c : Config) (points : List Point)
    (n : Nat) : Prop :=
  ∀ {σ : Type} (f : Callback σ) (start limit steps : Nat) (gathered : σ) (s : MachineState),
    n ≤ steps → s.Sane p → s.config = c → d ≤ s.frames.size →
    Matcher.Delivers f gathered (points.map (Point.toMatch start)) s.captures.size
      (Matcher.run p input start limit f steps gathered s).1
      (Matcher.run p input start limit f steps gathered s).2.1

namespace Settles

theorem mono {n n' : Nat} (h : Settles p input d c points n) (hn : n ≤ n') :
    Settles p input d c points n' :=
  fun f start limit steps gathered s hsteps =>
    h f start limit steps gathered s (Nat.le_trans hn hsteps)

theorem step (hstep : c.step p input = .going c') (hd : c'.stack.length ≤ d) {n : Nat}
    (h : Settles p input d c' points n) : Settles p input d c points (n + 1) := by
  intro σ f start limit steps gathered s hn hs hc hframes
  obtain ⟨k, rfl⟩ : ∃ k, steps = k + 1 := ⟨steps - 1, by omega⟩
  have href := refines_step hs input
  rw [hc, hstep] at href
  rw [Matcher.run]
  generalize Machine.step p input s = result at href ⊢
  cases href with
  | running hu hc' hf hk hp _ =>
    rw [← hk]
    exact h f start limit k gathered _ (by omega) hu hc' (hf ▸ hframes)
  | scratch hsp hlen => omega
  | log => exact Or.inr ⟨rfl, [], List.nil_prefix, rfl⟩

theorem steps (hsteps : Steps p input d c c') {n : Nat} (h : Settles p input d c' points n) :
    ∃ m, Settles p input d c points m := by
  induction hsteps with
  | refl => exact ⟨n, h⟩
  | more _ hs t ih =>
    obtain ⟨m, hm⟩ := ih h
    exact ⟨m + 1, hm.step hs t.length_left⟩

theorem exhausted : Settles p input d (.failing []) [] 1 := by
  intro σ f start limit steps gathered s hn hs hc hframes
  obtain ⟨k, rfl⟩ : ∃ k, steps = k + 1 := ⟨steps - 1, by omega⟩
  have href := refines_step hs input
  rw [hc] at href
  rw [Matcher.run]
  generalize Machine.step p input s = result at href ⊢
  cases href with
  | exhausted => exact Or.inl ⟨rfl, rfl⟩

theorem accepted {t : Point} {stack : List Entry}
    (hacc : c.step p input = .accepted t.pos t.log stack) {n : Nat}
    (h : Settles p input d (.failing stack) points n) :
    Settles p input d c (t :: points) (n + 1) := by
  intro σ f start limit steps gathered s hn hs hc hframes
  obtain ⟨k, rfl⟩ : ∃ k, steps = k + 1 := ⟨steps - 1, by omega⟩
  have href := refines_step hs input
  rw [hc, hacc] at href
  rw [Matcher.run, List.map_cons]
  generalize Machine.step p input s = result at href ⊢
  generalize hnext : Next.accepted t.pos t.log stack = next at href
  cases href with
  | accepted =>
    injection hnext with hpos hlog hstack
    have hmatch : s.toMatch start = t.toMatch start := by rw [s.toMatch_eq, ← hpos, ← hlog]
    dsimp only
    rw [hmatch]
    cases hf : f gathered (t.toMatch start) with
    | mk gathered₁ action =>
      cases action with
      | goOn =>
        exact .cons hf (h f start limit k gathered₁ _ (by omega) hs.backtracking
          (congrArg Config.failing hstack.symm) hframes)
      | stop =>
        refine Or.inl ?_
        rw [Matcher.report, hf]
        exact ⟨rfl, rfl⟩
  | _ => cases hnext

end Settles

/-- **With enough steps, an attempt gives its callback the points at which it accepts**, unless the
slots for captures run out. -/
theorem Enumerates.settles (h : Enumerates p input d c points) :
    ∃ n, Settles p input d c points n := by
  induction h with
  | done h => exact Settles.exhausted.steps h
  | found h ha _ _ ih =>
    obtain ⟨n, hn⟩ := ih
    exact Settles.steps h (Settles.accepted ha hn)

end BoundedRegex
