import BoundedRegex.Proofs.Match.Calls

/-!
# Attempts with ample buffers

An attempt that enumerates points has a longest log, and as many slots for captures never run out,
whatever the callback does and however long the attempt is (`Enumerates.spares`).  With as many
frames, slots and steps as it takes, the callback is given all the points, one by one, and nothing
else about the buffers makes a difference (`Enumerates.ample`).
-/

namespace BoundedRegex

variable {p : Program} {input : Array UInt8} {d k : Nat} {c c' : Config} {points : List Point}

/-- From a configuration, an attempt with `k` slots for captures never runs out of them. -/
def Spares (p : Program) (input : Array UInt8) (c : Config) (k : Nat) : Prop :=
  ∀ {σ : Type} (f : Callback σ) (start limit steps : Nat) (gathered : σ) (s : MachineState),
    s.Sane p → s.config = c → k ≤ s.captures.size → ∀ capacity,
      (Matcher.run p input start limit f steps gathered s).1 ≠
        .error (.captureBufferExhausted capacity)

namespace Spares

theorem mono {k' : Nat} (h : Spares p input c k) (hk : k ≤ k') : Spares p input c k' := by
  intro σ f start limit steps gathered s hs hc hslots
  exact h f start limit steps gathered s hs hc (Nat.le_trans hk hslots)

theorem step (hstep : c.step p input = .going c') (hlog : c'.log.length ≤ k)
    (h : Spares p input c' k) : Spares p input c k := by
  intro σ f start limit steps gathered s hs hc hslots capacity
  cases steps with
  | zero =>
    intro hfull
    cases hfull
  | succ steps =>
    have href := refines_step hs input
    rw [hc, hstep] at href
    rw [Matcher.run]
    generalize Machine.step p input s = result at href ⊢
    cases href with
    | running hu hc' _ hk => exact h f start limit steps gathered _ hu hc' (hk ▸ hslots) capacity
    | scratch =>
      intro hfull
      cases hfull
    | log hfull hlength =>
      rw [hlength, hfull] at hlog
      exact absurd (Nat.lt_of_lt_of_le hlog hslots) (Nat.lt_irrefl _)

theorem steps (hsteps : Steps p input d c c') (h : Spares p input c' k) :
    ∃ k, Spares p input c k := by
  induction hsteps with
  | refl => exact ⟨k, h⟩
  | @more _ c₁ _ _ hs _ ih =>
    obtain ⟨k', h'⟩ := ih h
    exact ⟨Nat.max c₁.log.length k',
      step hs (Nat.le_max_left ..) (h'.mono (Nat.le_max_right ..))⟩

theorem exhausted : Spares p input (.failing []) 0 := by
  intro σ f start limit steps gathered s hs hc _ capacity
  cases steps with
  | zero =>
    intro hfull
    cases hfull
  | succ steps =>
    have href := refines_step hs input
    rw [hc] at href
    rw [Matcher.run]
    generalize Machine.step p input s = result at href ⊢
    cases href with
    | exhausted =>
      intro hfull
      cases hfull

theorem accepted {pos : Nat} {log : List Capture} {stack : List Entry}
    (hacc : c.step p input = .accepted pos log stack) (h : Spares p input (.failing stack) k) :
    Spares p input c k := by
  intro σ f start limit steps gathered s hs hc hslots capacity
  cases steps with
  | zero =>
    intro hfull
    cases hfull
  | succ steps =>
    have href := refines_step hs input
    rw [hc, hacc] at href
    rw [Matcher.run]
    generalize Machine.step p input s = result at href ⊢
    generalize hnext : Next.accepted pos log stack = next at href
    cases href with
    | accepted =>
      injection hnext with _ _ hstack
      dsimp only
      split
      · intro hfull
        cases hfull
      · exact h f start limit steps _ _ hs.backtracking (congrArg Config.failing hstack.symm)
          hslots capacity
    | _ => cases hnext

end Spares

/-- An attempt that enumerates points needs no more than some number of slots for captures. -/
theorem Enumerates.spares (h : Enumerates p input d c points) : ∃ k, Spares p input c k := by
  induction h with
  | done h => exact Spares.exhausted.steps h
  | found h ha _ _ ih =>
    obtain ⟨k, hk⟩ := ih
    exact Spares.steps h (Spares.accepted ha hk)

namespace Matcher

/-- A matcher with the frames, slots for captures and steps that it takes. -/
structure Roomy (m : Matcher) (d slots steps : Nat) : Prop where
  frames : d ≤ m.frames.size
  captures : slots ≤ m.captures.size
  stepLimit : steps ≤ m.stepLimit

theorem Roomy.mono {m : Matcher} {d slots slots' steps steps' : Nat} (h : m.Roomy d slots' steps')
    (hslots : slots ≤ slots') (hsteps : steps ≤ steps') : m.Roomy d slots steps :=
  ⟨h.frames, Nat.le_trans hslots h.captures, Nat.le_trans hsteps h.stepLimit⟩

/-- An attempt gives some matches to its callback, one by one, and ends as that says. -/
structure Gives {σ : Type} (f : Callback σ) (gathered : σ) (found : List Match) (a : Attempt σ) :
    Prop where
  outcome : a.outcome = .ok (report f gathered found).1
  gathered : a.gathered = (report f gathered found).2

/-- The first of the matches that an attempt gives is what an attempt for one match comes to. -/
theorem Gives.matchAt {m : Matcher} {start : Nat} {found : List Match}
    (h : Gives firstOnly () found (m.tryMatch input start firstOnly ())) :
    (m.matchAt input start).1 = .ok found.head? := by
  rw [Matcher.matchAt, h.outcome, report_firstOnly]

/-- All the matches that an attempt gives to one that keeps them. -/
theorem Gives.enumeration {m : Matcher} {start : Nat} {found : List Match}
    (h : Gives collectAll [] found (m.enumeration input start)) :
    (m.enumeration input start).outcome = .ok none ∧
      (m.enumeration input start).gathered = found := by
  obtain ⟨ho, hg⟩ := h
  rw [report_collectAll, List.nil_append] at ho hg
  exact ⟨ho, hg⟩

/-- An attempt gives its points where there are as many steps and slots for captures as it takes. -/
theorem Roomy.gives {m : Matcher} {start slots steps : Nat} (h : m.Roomy d slots steps)
    (hstart : start ≤ input.size)
    (hsteps : Settles m.program input d (.running 0 start [] []) points steps)
    (hslots : Spares m.program input (.running 0 start [] []) slots) {σ : Type} (f : Callback σ)
    (gathered : σ) :
    Gives f gathered (points.map (Point.toMatch start)) (m.tryMatch input start f gathered) := by
  rcases tryMatch_delivers hstart hsteps h.frames h.stepLimit f gathered with
    ⟨houtcome, hgathered⟩ | ⟨hfull, -⟩
  · exact ⟨houtcome, hgathered⟩
  · rw [tryMatch_eq m hstart] at hfull
    exact absurd hfull (hslots f start m.stepLimit m.stepLimit gathered _
      (MachineState.sane_initial ..) (MachineState.config_initial ..) h.captures _)

end Matcher

/-- **With ample buffers and steps, an attempt gives its callback the points at which it accepts,
and no others**: the frames, the slots for captures and the steps that it takes are the same for
every callback. -/
theorem Enumerates.ample {start : Nat} (hstart : start ≤ input.size)
    (h : Enumerates p input d (.running 0 start [] []) points) :
    ∃ slots steps, ∀ m : Matcher, m.program = p → m.Roomy d slots steps →
      ∀ {σ : Type} (f : Callback σ) (gathered : σ),
        Matcher.Gives f gathered (points.map (Point.toMatch start))
          (m.tryMatch input start f gathered) := by
  obtain ⟨slots, hslots⟩ := h.spares
  obtain ⟨steps, hsteps⟩ := h.settles
  refine ⟨slots, steps, ?_⟩
  rintro m rfl hroomy σ f gathered
  exact hroomy.gives hstart hsteps hslots f gathered

/-- What is ample for the attempts at each of some offsets is ample for all of them, if it is as
much as the most that any of them takes. -/
theorem Matcher.exists_roomy_forall {P : Nat → Matcher → Prop} {count : Nat}
    (h : ∀ offset < count, ∃ slots steps, ∀ m : Matcher, m.Roomy d slots steps → P offset m) :
    ∃ slots steps, ∀ m : Matcher, m.Roomy d slots steps → ∀ offset < count, P offset m := by
  induction count with
  | zero => exact ⟨0, 0, fun m _ offset hoffset => absurd hoffset (Nat.not_lt_zero offset)⟩
  | succ count ih =>
    obtain ⟨slots, steps, hbelow⟩ := ih fun offset hoffset => h offset (Nat.lt_succ_of_lt hoffset)
    obtain ⟨slots', steps', hlast⟩ := h count (Nat.lt_succ_self count)
    refine ⟨Nat.max slots slots', Nat.max steps steps', ?_⟩
    intro m hroomy offset hoffset
    rcases Nat.lt_succ_iff_lt_or_eq.1 hoffset with hlt | rfl
    · exact hbelow m (hroomy.mono (Nat.le_max_left ..) (Nat.le_max_left ..)) offset hlt
    · exact hlast m (hroomy.mono (Nat.le_max_right ..) (Nat.le_max_right ..))

end BoundedRegex
