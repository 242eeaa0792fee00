import BoundedRegex.Match.Matcher
import BoundedRegex.Proofs.Match.Refinement

/-!
# Runs and calls

What an attempt may pass through (`Machine.Reaches`) and what a matcher may have become after any
calls (`Matcher.After`), whatever the callbacks do.
-/

namespace BoundedRegex

/-- The states through which an attempt may pass, if it goes on after each match. -/
inductive Machine.Reaches (p : Program) (input : Array UInt8) (s : MachineState) :
    MachineState → Prop where
  | refl : Reaches p input s s
  | step {t u : MachineState} (h : Reaches p input s t) (hs : Machine.step p input t = .running u) :
      Reaches p input s u
  | resume {t u : MachineState} (h : Reaches p input s t)
      (hs : Machine.step p input t = .accepted u) :
      Reaches p input s { u with mode := .backtracking }

theorem Machine.Reaches.trans {p : Program} {input : Array UInt8} {s t u : MachineState}
    (h : Reaches p input s t) (h' : Reaches p input t u) : Reaches p input s u := by
  induction h' with
  | refl => exact h
  | step _ hs ih => exact ih.step hs
  | resume _ hs ih => exact ih.resume hs

namespace Matcher

/-- What a matcher may have become after calls of any kind, in any order and with any arguments. -/
inductive After (m₀ : Matcher) : Matcher → Prop where
  | start : After m₀ m₀
  | tryMatch {m : Matcher} (h : After m₀ m) {σ : Type} (input : Array UInt8) (start : Nat)
      (f : Callback σ) (gathered : σ) : After m₀ (m.tryMatch input start f gathered).matcher
  | matchAt {m : Matcher} (h : After m₀ m) (input : Array UInt8) (start : Nat) :
      After m₀ (m.matchAt input start).2
  | findAt {m : Matcher} (h : After m₀ m) (input : Array UInt8) (start : Nat) :
      After m₀ (m.findAt input start).2

/-- Gives matches to a callback one by one, until it stops: the match at which it has, if any, and
what it has gathered. -/
def report {σ : Type} (f : Callback σ) : σ → List Match → Option Match × σ
  | gathered, [] => (none, gathered)
  | gathered, m :: rest =>
    match f gathered m with
    | (gathered, .stop) => (some m, gathered)
    | (gathered, .goOn) => report f gathered rest

/-- An attempt gives matches to a callback one by one, and ends as that says, or some of them, if
the slots for captures run out. -/
def Delivers {σ : Type} (f : Callback σ) (gathered : σ) (found : List Match) (capacity : Nat)
    (outcome : Except MatchError (Option Match)) (gathered' : σ) : Prop :=
  (outcome = .ok (report f gathered found).1 ∧ gathered' = (report f gathered found).2) ∨
    (outcome = .error (.captureBufferExhausted capacity) ∧
      ∃ read, read <+: found ∧ report f gathered read = (none, gathered'))

theorem Delivers.cons {σ : Type} {f : Callback σ} {gathered gathered₁ gathered' : σ} {m : Match}
    {rest : List Match} {capacity : Nat} {outcome : Except MatchError (Option Match)}
    (hf : f gathered m = (gathered₁, .goOn))
    (h : Delivers f gathered₁ rest capacity outcome gathered') :
    Delivers f gathered (m :: rest) capacity outcome gathered' := by
  rcases h with ⟨ho, hg⟩ | ⟨ho, read, hread, hg⟩
  · refine Or.inl ?_
    rw [report, hf]
    exact ⟨ho, hg⟩
  · refine Or.inr ⟨ho, m :: read, List.cons_prefix_cons.2 ⟨rfl, hread⟩, ?_⟩
    rw [report, hf]
    exact hg

end Matcher

end BoundedRegex
