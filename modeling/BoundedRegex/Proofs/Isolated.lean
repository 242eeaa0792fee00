import BoundedRegex.Proofs.CaptureSlots
import BoundedRegex.Proofs.Match.Lockstep

/-!
# Calls leave nothing behind

A matcher serves any number of calls with the same buffers, and never clears them.  What one call
leaves in them no later call sees: each answers as it would on a fresh matcher, whatever is in the
buffers of that one, and the peak is the highest that the calls have on fresh matchers
(`Matcher.calls_isolated`).  It does not matter how a call ends.
-/

namespace BoundedRegex

/-- A call of a matcher. -/
inductive Call where
  | matchAt (input : Array UInt8) (start : Nat)
  | findAt (input : Array UInt8) (start : Nat)
  | tryMatch (σ : Type) (input : Array UInt8) (start : Nat) (f : Callback σ) (gathered : σ)

/-- What a call gives back: its outcome, and what its callback, if it has one, has gathered. -/
def Call.Answer : Call → Type
  | matchAt _ _ | findAt _ _ => Except MatchError (Option Match)
  | tryMatch σ _ _ _ _ => Except MatchError (Option Match) × σ

namespace Matcher

/-- The answer to a call. -/
def answer (m : Matcher) : (c : Call) → c.Answer
  | .matchAt input start => (m.matchAt input start).1
  | .findAt input start => (m.findAt input start).1
  | .tryMatch _ input start f gathered =>
    ((m.tryMatch input start f gathered).outcome, (m.tryMatch input start f gathered).gathered)

/-- The matcher as a call leaves it. -/
def afterCall (m : Matcher) : Call → Matcher
  | .matchAt input start => (m.matchAt input start).2
  | .findAt input start => (m.findAt input start).2
  | .tryMatch _ input start f gathered => (m.tryMatch input start f gathered).matcher

/-- The matcher as calls leave it that are made one after the other. -/
def afterCalls (m : Matcher) (calls : List Call) : Matcher :=
  calls.foldl afterCall m

/-! ### Matchers that are alike -/

/-- A matcher of the same program with buffers of the same sizes, whatever is in them, and the same
limit on steps. -/
structure Like (m m' : Matcher) : Prop where
  program : m.program = m'.program
  frames : m.frames.size = m'.frames.size
  captures : m.captures.size = m'.captures.size
  stepLimit : m.stepLimit = m'.stepLimit

/-- Two matchers that are alike, of which the first has a peak of `k` behind it. -/
structure Alike (k : Nat) (m m' : Matcher) : Prop extends Like m m' where
  peak : m.peak = Nat.max k m'.peak

variable {k : Nat} {m m' : Matcher}

theorem Like.refl (m : Matcher) : m.Like m :=
  ⟨rfl, rfl, rfl, rfl⟩

theorem Like.trans {m'' : Matcher} (h : m.Like m') (h' : m'.Like m'') : m.Like m'' :=
  ⟨h.program.trans h'.program, h.frames.trans h'.frames, h.captures.trans h'.captures,
    h.stepLimit.trans h'.stepLimit⟩

namespace Alike

theorem tryMatch {σ : Type} (h : m.Alike k m') (input : Array UInt8) (start : Nat) (f : Callback σ)
    (gathered : σ) :
    (m.tryMatch input start f gathered).outcome = (m'.tryMatch input start f gathered).outcome ∧
      (m.tryMatch input start f gathered).gathered =
        (m'.tryMatch input start f gathered).gathered ∧
      (m.tryMatch input start f gathered).matcher.Alike k
        (m'.tryMatch input start f gathered).matcher := by
  by_cases hstart : start ≤ input.size
  · rw [m.tryMatch_eq hstart, m'.tryMatch_eq hstart, h.program, h.stepLimit]
    obtain ⟨houtcome, hgathered, halike⟩ := run_alike m'.program input start m'.stepLimit f
      (MachineState.alike_initial start h.frames h.captures h.peak) m'.stepLimit gathered
    exact ⟨houtcome, hgathered, ⟨rfl, halike.frames, halike.captures, rfl⟩, halike.peak⟩
  · rw [Matcher.tryMatch, Matcher.tryMatch, if_neg hstart, if_neg hstart]
    exact ⟨rfl, rfl, h⟩

theorem matchAt (h : m.Alike k m') (input : Array UInt8) (start : Nat) :
    (m.matchAt input start).1 = (m'.matchAt input start).1 ∧
      (m.matchAt input start).2.Alike k (m'.matchAt input start).2 := by
  obtain ⟨houtcome, -, halike⟩ := h.tryMatch input start firstOnly ()
  exact ⟨houtcome, halike⟩

theorem search (h : m.Alike k m') (input : Array UInt8) (start count : Nat) :
    (m.search input start count).1 = (m'.search input start count).1 ∧
      (m.search input start count).2.Alike k (m'.search input start count).2 := by
  induction count generalizing m m' start with
  | zero => exact ⟨rfl, h⟩
  | succ count ih =>
    obtain ⟨houtcome, halike⟩ := h.matchAt input start
    rw [Matcher.search, Matcher.search]
    generalize m.matchAt input start = a at houtcome halike ⊢
    generalize m'.matchAt input start = a' at houtcome halike ⊢
    obtain ⟨outcome, u⟩ := a
    obtain ⟨outcome', u'⟩ := a'
    cases houtcome
    cases outcome with
    | error => exact ⟨rfl, halike⟩
    | ok found =>
      cases found with
      | none => exact ih halike (start + 1)
      | some => exact ⟨rfl, halike⟩

theorem findAt (h : m.Alike k m') (input : Array UInt8) (start : Nat) :
    (m.findAt input start).1 = (m'.findAt input start).1 ∧
      (m.findAt input start).2.Alike k (m'.findAt input start).2 := by
  have hanchored : m.isAnchored = m'.isAnchored := by rw [isAnchored, isAnchored, h.program]
  rw [Matcher.findAt, Matcher.findAt, hanchored]
  split
  · exact h.search input start _
  · exact h.search input start _

/-- Matchers that are alike answer alike, and a call leaves them alike. -/
theorem call (h : m.Alike k m') (c : Call) :
    m.answer c = m'.answer c ∧ (m.afterCall c).Alike k (m'.afterCall c) := by
  cases c with
  | matchAt input start => exact h.matchAt input start
  | findAt input start => exact h.findAt input start
  | tryMatch σ input start f gathered =>
    obtain ⟨houtcome, hgathered, halike⟩ := h.tryMatch input start f gathered
    exact ⟨Prod.ext houtcome hgathered, halike⟩

end Alike

/-! ### What a call leaves of a matcher -/

theorem like_tryMatch {σ : Type} (m : Matcher) (input : Array UInt8) (start : Nat) (f : Callback σ)
    (gathered : σ) : (m.tryMatch input start f gathered).matcher.Like m := by
  by_cases hstart : start ≤ input.size
  · rw [m.tryMatch_eq hstart]
    obtain ⟨hframes, hcaptures⟩ := size_run m.program input start m.stepLimit f
      (MachineState.sane_initial m.program start m.frames m.captures m.peak) m.stepLimit gathered
    exact ⟨rfl, hframes, hcaptures, rfl⟩
  · rw [Matcher.tryMatch, if_neg hstart]
    exact .refl m

theorem like_search (m : Matcher) (input : Array UInt8) (start count : Nat) :
    (m.search input start count).2.Like m := by
  induction count generalizing m start with
  | zero => exact .refl m
  | succ count ih =>
    have hlike : (m.matchAt input start).2.Like m := m.like_tryMatch input start firstOnly ()
    rw [Matcher.search]
    split
    · next heq =>
      rw [heq] at hlike
      exact (ih _ (start + 1)).trans hlike
    · exact hlike

/-- A call changes neither the program nor the sizes of the buffers. -/
theorem like_afterCall (m : Matcher) (c : Call) : (m.afterCall c).Like m := by
  cases c with
  | matchAt input start => exact m.like_tryMatch input start firstOnly ()
  | findAt input start =>
    show (m.findAt input start).2.Like m
    unfold findAt
    split <;> exact m.like_search input start _
  | tryMatch σ input start f gathered => exact m.like_tryMatch input start f gathered

theorem like_afterCalls (m : Matcher) (calls : List Call) : (m.afterCalls calls).Like m := by
  induction calls generalizing m with
  | nil => exact .refl m
  | cons c calls ih => exact (ih (m.afterCall c)).trans (m.like_afterCall c)

/-- What `search` comes to, unless it finds nothing, is what an attempt of a matcher alike comes to.
-/
theorem exists_matchAt_of_search {input : Array UInt8} {start count : Nat}
    {outcome : Except MatchError (Option Match)} (h : (m.search input start count).1 = outcome)
    (hne : outcome ≠ .ok none) :
    ∃ (m' : Matcher) (offset : Nat), m'.Like m ∧ (m'.matchAt input offset).1 = outcome := by
  induction count generalizing m start with
  | zero => exact absurd h.symm hne
  | succ count ih =>
    have hlike : (m.matchAt input start).2.Like m := m.like_tryMatch input start firstOnly ()
    rw [search] at h
    split at h
    · next m' heq =>
      rw [heq] at hlike
      obtain ⟨m₁, offset, hm₁, hfound⟩ := ih h
      exact ⟨m₁, offset, hm₁.trans hlike, hfound⟩
    · exact ⟨m, start, .refl m, h⟩

theorem exists_matchAt_of_findAt {input : Array UInt8} {start : Nat}
    {outcome : Except MatchError (Option Match)} (h : (m.findAt input start).1 = outcome)
    (hne : outcome ≠ .ok none) :
    ∃ (m' : Matcher) (offset : Nat), m'.Like m ∧ (m'.matchAt input offset).1 = outcome := by
  rw [findAt_eq_search] at h
  exact exists_matchAt_of_search h hne

/-! ### Calls in a row -/

/-- A fresh matcher is like any that has come from one like it, but for the peak. -/
theorem Like.alike (h : m.Like m') (hpeak : m'.peak = 0) : m.Alike m.peak m' where
  toLike := h
  peak := by rw [hpeak]; exact (Nat.max_zero m.peak).symm

/-- The peak after some calls, from those that they have on fresh matchers. -/
theorem peak_afterCalls {fresh : Call → Matcher} (calls : List Call)
    (hfresh : ∀ c ∈ calls, m.Like (fresh c) ∧ (fresh c).peak = 0) :
    (m.afterCalls calls).peak =
      (calls.map fun c => ((fresh c).afterCall c).peak).foldl Nat.max m.peak := by
  induction calls generalizing m with
  | nil => rfl
  | cons c calls ih =>
    obtain ⟨hlike, hpeak⟩ := hfresh c List.mem_cons_self
    obtain ⟨-, hcall⟩ := (hlike.alike hpeak).call c
    rw [List.map_cons, List.foldl_cons, ← hcall.peak]
    refine ih fun c' hc' => ?_
    obtain ⟨hlike', hpeak'⟩ := hfresh c' (List.mem_cons_of_mem c hc')
    exact ⟨(m.like_afterCall c).trans hlike', hpeak'⟩

/-- **Calls are isolated from one another.**  Of any calls that a matcher serves one after another,
each answers as it does on a fresh matcher, and the peak in the end is the highest of those that the
calls have on fresh ones.  A fresh matcher has a peak of zero, and the program and the sizes of the
buffers in common with the first; all else in its buffers may be different, and from call to call.
How the calls before have ended, and what the program is, does not matter. -/
theorem calls_isolated {m : Matcher} (hm : m.peak = 0) {calls : List Call}
    {fresh : Call → Matcher} (hfresh : ∀ c ∈ calls, m.Like (fresh c) ∧ (fresh c).peak = 0) :
    (∀ before c after, calls = before ++ c :: after →
      (m.afterCalls before).answer c = (fresh c).answer c) ∧
    (m.afterCalls calls).peak =
      (calls.map fun c => ((fresh c).afterCall c).peak).foldl Nat.max 0 := by
  refine ⟨?_, hm ▸ peak_afterCalls calls hfresh⟩
  rintro before c after rfl
  obtain ⟨hlike, hpeak⟩ := hfresh c (List.mem_append_right before List.mem_cons_self)
  exact ((((m.like_afterCalls before).trans hlike).alike hpeak).call c).1

/-- A matcher for `<a>+a` with two slots for captures runs out of them on `aaa`.  The next call
finds the match in `baa` as it does in buffers that are full of other things. -/
theorem calls_isolated_givingBack :
    let m := ofRegex .givingBack 2 2
    let other : Matcher :=
      { m with frames := Array.replicate 2 (.capture 0 5), captures := Array.replicate 2 ⟨0, 7, 9⟩ }
    let first : Call := .matchAt #[0x61, 0x61, 0x61] 0
    let second : Call := .findAt #[0x62, 0x61, 0x61] 0
    m.Like other ∧ (m.matchAt #[0x61, 0x61, 0x61] 0).1 = .error (.captureBufferExhausted 2) ∧
      ((m.afterCalls [first]).findAt #[0x62, 0x61, 0x61] 0).1 =
        (other.findAt #[0x62, 0x61, 0x61] 0).1 ∧
      (other.findAt #[0x62, 0x61, 0x61] 0).1 = .ok (some ⟨1, 3, [⟨0, 1, 2⟩]⟩) ∧
      (m.afterCalls [first, second]).peak = 2 := by
  intro m other first second
  have hother : m.Like other := ⟨rfl, by decide, by decide, rfl⟩
  have hfresh : ∀ c ∈ [first, second], m.Like other ∧ other.peak = 0 := fun _ _ => ⟨hother, rfl⟩
  obtain ⟨hanswer, hpeak⟩ := calls_isolated (m := m) rfl hfresh
  exact ⟨hother, by decide +kernel, hanswer [first] second [] rfl, by decide +kernel,
    hpeak.trans (by decide +kernel)⟩

end Matcher

end BoundedRegex
