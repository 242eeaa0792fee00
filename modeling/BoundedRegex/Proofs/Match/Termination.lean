import Mathlib.Data.Set.Finite.List
import Mathlib.Order.Filter.AtTopBot.Finite
import BoundedRegex.Proofs.Match.Halting

/-!
# Attempts that end

An attempt that enumerates points is over after some steps.  As many are enough whatever buffers it
has and whatever its callback does, since a full buffer or a callback that stops only ends it sooner
(`Enumerates.endsWithin`).  There are finitely many inputs of a length, so one number of steps is
enough for all of them (`exists_stepBound`).
-/

namespace BoundedRegex

/-- From a configuration, `n` steps are enough for an attempt, whatever buffers it has and whatever
its callback does. -/
def EndsWithin (p : Program) (input : Array UInt8) (c : Config) (n : Nat) : Prop :=
  ∀ {σ : Type} (f : Callback σ) (start : Nat) (gathered : σ) (s : MachineState), s.Sane p →
    s.config = c → Matcher.trace p input start f n gathered s = none

namespace EndsWithin

variable {p : Program} {input : Array UInt8} {d n : Nat} {c c' : Config}

theorem mono {m : Nat} (h : EndsWithin p input c n) (hnm : n ≤ m) : EndsWithin p input c m :=
  fun f start gathered s hs hc => Matcher.trace_eq_none_of_le hnm (h f start gathered s hs hc)

/-- A step, or a buffer that it overfills. -/
theorem step (hstep : c.step p input = .going c') (h : EndsWithin p input c' n) :
    EndsWithin p input c (n + 1) := by
  intro σ f start gathered s hs hc
  have href := refines_step hs input
  rw [hc, hstep] at href
  rw [Matcher.trace]
  generalize Machine.step p input s = result at href ⊢
  cases href with
  | running hu hc' => exact h f start gathered _ hu hc'
  | scratch | log => rfl

theorem exhausted : EndsWithin p input (.failing []) 1 := by
  intro σ f start gathered s hs hc
  have href := refines_step hs input
  rw [hc] at href
  rw [Matcher.trace]
  generalize Machine.step p input s = result at href ⊢
  cases href with
  | exhausted => rfl

/-- A match, after which the callback stops or the attempt goes on. -/
theorem accepted {pos : Nat} {log : List Capture} {stack : List Entry}
    (hacc : c.step p input = .accepted pos log stack) (h : EndsWithin p input (.failing stack) n) :
    EndsWithin p input c (n + 1) := by
  intro σ f start gathered s hs hc
  have href := refines_step hs input
  rw [hc, hacc] at href
  rw [Matcher.trace]
  generalize Machine.step p input s = result at href ⊢
  generalize hnext : Next.accepted pos log stack = next at href
  cases href with
  | accepted =>
    injection hnext with _ _ hstack
    dsimp only
    split
    · rfl
    · exact h f start _ _ hs.backtracking (congrArg Config.failing hstack.symm)
  | _ => cases hnext

theorem steps (hsteps : Steps p input d c c') (h : EndsWithin p input c' n) :
    ∃ m, EndsWithin p input c m := by
  induction hsteps with
  | refl => exact ⟨n, h⟩
  | more _ hs _ ih =>
    obtain ⟨m, hm⟩ := ih h
    exact ⟨m + 1, hm.step hs⟩

end EndsWithin

/-- **An attempt that enumerates points is over after some steps.** -/
theorem Enumerates.endsWithin {p : Program} {input : Array UInt8} {d : Nat} {c : Config}
    {points : List Point} (h : Enumerates p input d c points) : ∃ n, EndsWithin p input c n := by
  induction h with
  | done h => exact EndsWithin.exhausted.steps h
  | found h ha _ _ ih =>
    obtain ⟨n, hn⟩ := ih
    exact EndsWithin.steps h (hn.accepted ha)

/-! ### All inputs of a length -/

instance instFiniteByte : Finite UInt8 :=
  Finite.of_injective UInt8.toFin fun _ _ h => UInt8.toFin_inj.1 h

theorem finite_size_eq (n : Nat) : {input : Array UInt8 | input.size = n}.Finite := by
  refine ((List.finite_length_eq UInt8 n).image List.toArray).subset ?_
  intro input hn
  exact ⟨input.toList, hn, rfl⟩

/-- The number of steps that is enough for attempts at all offsets of all inputs of a length, if some
number is for each. -/
theorem exists_stepBound {p : Program}
    (h : ∀ (input : Array UInt8) (start : Nat), start ≤ input.size →
      ∃ k, EndsWithin p input (.running 0 start [] []) k) (n : Nat) :
    ∃ k, ∀ (input : Array UInt8) (start : Nat), input.size = n → start ≤ n →
      EndsWithin p input (.running 0 start [] []) k := by
  have hfinite := (finite_size_eq n).prod (Set.finite_le_nat n)
  have heventually := (Filter.eventually_all_finite hfinite (l := .atTop)
    (p := fun x k => EndsWithin p x.1 (.running 0 x.2 [] []) k)).2 ?_
  · obtain ⟨k, hk⟩ := heventually.exists
    exact ⟨k, fun input start hn hstart => hk (input, start) ⟨hn, hstart⟩⟩
  · rintro ⟨input, start⟩ ⟨hn, hstart⟩
    obtain ⟨k, hk⟩ := h input start (hn ▸ hstart)
    exact Filter.eventually_atTop.2 ⟨k, fun _ hle => hk.mono hle⟩

/-! ### Calls -/

namespace Matcher

variable {m : Matcher} {input : Array UInt8} {k : Nat}

theorem tryMatch_conclusive {start : Nat}
    (h : start ≤ input.size → EndsWithin m.program input (.running 0 start [] []) k)
    (hk : k ≤ m.stepLimit) {σ : Type} (f : Callback σ) (gathered : σ) :
    Conclusive (m.tryMatch input start f gathered).outcome := by
  by_cases hstart : start ≤ input.size
  · rw [tryMatch_eq m hstart]
    have hsane := MachineState.sane_initial m.program start m.frames m.captures m.peak
    exact (conclusive_run_iff m.stepLimit m.stepLimit gathered hsane).2
      (EndsWithin.mono (h hstart) hk f start gathered _ hsane (MachineState.config_initial ..))
  · rw [tryMatch, if_neg hstart]
    rintro limit ⟨⟩

theorem stepLimit_matchAt (m : Matcher) (input : Array UInt8) (start : Nat) :
    (m.matchAt input start).2.stepLimit = m.stepLimit := by
  by_cases hstart : start ≤ input.size
  · rw [matchAt, tryMatch_eq m hstart]
  · rw [matchAt, tryMatch, if_neg hstart]

variable (h : ∀ start ≤ input.size, EndsWithin m.program input (.running 0 start [] []) k)
  (hk : k ≤ m.stepLimit)
include h hk

theorem search_conclusive (start count : Nat) : Conclusive (m.search input start count).1 := by
  induction count generalizing m start with
  | zero => exact fun _ => nofun
  | succ count ih =>
    have hmatch : Conclusive (m.matchAt input start).1 :=
      tryMatch_conclusive (h start) hk firstOnly ()
    have hprogram := program_matchAt m input start
    have hlimit := stepLimit_matchAt m input start
    rw [search]
    split
    · next m' heq =>
      rw [heq] at hprogram hlimit
      exact ih (hprogram ▸ h) (hlimit ▸ hk) (start + 1)
    · exact hmatch

theorem findAt_conclusive (start : Nat) : Conclusive (m.findAt input start).1 := by
  rw [findAt_eq_search]
  exact search_conclusive h hk start _

end Matcher

end BoundedRegex
