import BoundedRegex.Proofs.Isolated

/-!
# The leftmost match

`findAt` makes one attempt after another with the same buffers, and at an anchored pattern leaves
out all but the first.  What it comes to is told here by attempts that know nothing of each other.

* `Matcher.search_eq_firstOutcome`: a search comes to the first outcome of the attempts at its
  offsets, each made as if it were the only one, that is not "no match".
* `Matcher.matchAt_of_isAnchored`: beyond the start of the input an anchored pattern has no match,
  and two steps are enough to see it.
* `Matcher.matchAt_eq_head`: an attempt for one match comes to the first one that is reported to a
  callback that always goes on.
* `Matcher.findAt_leftmost` puts them together.

Nothing is assumed of the program or of the buffers.  Buffers that are too small, and steps that do
not suffice, are outcomes like any others.
-/

namespace BoundedRegex

namespace Matcher

/-- The first of some outcomes that is not that there is no match; that there is none if all are. -/
def firstOutcome (outcomes : List (Except MatchError (Option Match))) :
    Except MatchError (Option Match) :=
  (outcomes.find? (· ≠ .ok none)).getD (.ok none)

/-- What attempts come to at `count` offsets, from `start` on. -/
def outcomes (m : Matcher) (input : Array UInt8) (start count : Nat) :
    List (Except MatchError (Option Match)) :=
  (List.range' start count).map fun offset => (m.matchAt input offset).1

/-! ### First outcomes -/

section

variable {outcome : Except MatchError (Option Match)}
  {rest : List (Except MatchError (Option Match))}

@[simp]
theorem firstOutcome_none (rest : List (Except MatchError (Option Match))) :
    firstOutcome (.ok none :: rest) = firstOutcome rest := by
  simp [firstOutcome]

theorem firstOutcome_of_ne (h : outcome ≠ .ok none) : firstOutcome (outcome :: rest) = outcome := by
  simp [firstOutcome, h]

theorem firstOutcome_of_forall (h : ∀ outcome ∈ rest, outcome = .ok none) :
    firstOutcome rest = .ok none := by
  have hfind : rest.find? (· ≠ .ok none) = none := by
    simpa using h
  simp only [firstOutcome, hfind, Option.getD_none]

/-- Behind the first of some outcomes, those that are all "no match" do not count. -/
theorem firstOutcome_cons_of_forall (h : ∀ outcome ∈ rest, outcome = .ok none) :
    firstOutcome (outcome :: rest) = outcome := by
  by_cases hne : outcome = .ok none
  · rw [hne, firstOutcome_none, firstOutcome_of_forall h]
  · exact firstOutcome_of_ne hne

end

/-! ### Attempts by themselves -/

variable {m m' : Matcher} {input : Array UInt8}

/-- An attempt comes to the same whatever is in the buffers, and whatever their peak. -/
theorem Like.matchAt_eq (h : m.Like m') (input : Array UInt8) (offset : Nat) :
    (m.matchAt input offset).1 = (m'.matchAt input offset).1 := by
  have hfresh (u : Matcher) : u.Like { m' with peak := 0 } → (u.matchAt input offset).1 =
      (Matcher.matchAt { m' with peak := 0 } input offset).1 := by
    intro hu
    exact ((hu.alike rfl).matchAt input offset).1
  have hm' : m'.Like { m' with peak := 0 } := ⟨rfl, rfl, rfl, rfl⟩
  exact (hfresh m (h.trans hm')).trans (hfresh m' hm').symm

theorem Like.outcomes_eq (h : m.Like m') (input : Array UInt8) (start count : Nat) :
    m.outcomes input start count = m'.outcomes input start count := by
  simp only [outcomes, h.matchAt_eq input]

theorem outcomes_succ (m : Matcher) (input : Array UInt8) (start count : Nat) :
    m.outcomes input start (count + 1) =
      (m.matchAt input start).1 :: m.outcomes input (start + 1) count := by
  simp [outcomes, List.range'_succ]

/-- **What a search leaves in the buffers at one offset makes no difference at the next.** -/
theorem search_eq_firstOutcome (m : Matcher) (input : Array UInt8) (start count : Nat) :
    (m.search input start count).1 = firstOutcome (m.outcomes input start count) := by
  induction count generalizing m start with
  | zero => rfl
  | succ count ih =>
    have hlike : (m.matchAt input start).2.Like m := m.like_tryMatch input start firstOnly ()
    rw [search, outcomes_succ]
    split
    · next m' heq =>
      rw [heq] at hlike ⊢
      rw [ih, firstOutcome_none, hlike.outcomes_eq]
    · next outcome hne =>
      refine (firstOutcome_of_ne ?_).symm
      intro hnone
      exact hne _ (Prod.ext hnone rfl)

/-! ### Anchored patterns -/

/-- A pattern anchored to the start of the input fails at once at any other offset. -/
theorem matchAt_of_isAnchored (hanchored : m.isAnchored = true) (hlimit : 2 ≤ m.stepLimit)
    {offset : Nat} (hoffset : 0 < offset) : (m.matchAt input offset).1 = .ok none := by
  by_cases hin : offset ≤ input.size
  · obtain ⟨size, hfetch⟩ : ∃ size, m.program.fetch? 0 = some (.inputStart, size) := by
      unfold isAnchored at hanchored
      split at hanchored
      · next size hfetch => exact ⟨size, hfetch⟩
      · cases hanchored
    obtain ⟨steps, hsteps⟩ : ∃ steps, m.stepLimit = steps + 2 := Nat.exists_eq_add_of_le' hlimit
    have hne : offset ≠ 0 := Nat.ne_of_gt hoffset
    -- The anchor fails, and there is no frame to go back to.
    have hfail : Machine.step m.program input (.initial offset m.frames m.captures m.peak) =
        (MachineState.initial offset m.frames m.captures m.peak).fail := by
      simp [Machine.step, Machine.execute, MachineState.initial, hfetch, MachineState.gotoIf, hne]
    rw [matchAt, tryMatch_eq m hin, hsteps, run, hfail]
    rfl
  · rw [matchAt, tryMatch, if_neg hin]

theorem findAt_eq_firstOutcome (m : Matcher) (hlimit : 2 ≤ m.stepLimit) (input : Array UInt8)
    (start : Nat) :
    (m.findAt input start).1 = firstOutcome (m.outcomes input start (input.size + 1 - start)) := by
  by_cases hanchored : m.isAnchored = true
  · have hnone (start count : Nat) (hstart : 0 < start) :
        ∀ outcome ∈ m.outcomes input start count, outcome = .ok none := by
      intro outcome ho
      obtain ⟨offset, hoffset, rfl⟩ := List.mem_map.1 ho
      have hle : start ≤ offset := (List.mem_range'_1.1 hoffset).1
      exact matchAt_of_isAnchored hanchored hlimit (Nat.lt_of_lt_of_le hstart hle)
    rw [findAt, if_pos hanchored, search_eq_firstOutcome]
    by_cases hstart : start = 0
    · subst hstart
      rw [if_pos rfl, Nat.sub_zero, outcomes_succ, outcomes_succ,
        firstOutcome_cons_of_forall (hnone _ _ Nat.zero_lt_one),
        firstOutcome_cons_of_forall (hnone _ _ Nat.zero_lt_one)]
    · rw [if_neg hstart, firstOutcome_of_forall (hnone _ _ (Nat.pos_of_ne_zero hstart)),
        firstOutcome_of_forall (hnone _ _ (Nat.pos_of_ne_zero hstart))]
  · rw [findAt, if_neg hanchored, search_eq_firstOutcome]

/-- Where no attempt comes to an error, a search finds what the first of them finds that finds
anything. -/
theorem findAt_eq_findSome {m : Matcher} (hlimit : 2 ≤ m.stepLimit) {found : Nat → Option Match}
    (h : ∀ offset < input.size + 1, (m.matchAt input offset).1 = .ok (found offset))
    (start : Nat) :
    (m.findAt input start).1 =
      .ok ((List.range' start (input.size + 1 - start)).findSome? found) := by
  have hin : ∀ offset ∈ List.range' start (input.size + 1 - start), offset < input.size + 1 := by
    intro offset hoffset
    have hrange := List.mem_range'_1.1 hoffset
    omega
  rw [m.findAt_eq_firstOutcome hlimit, outcomes]
  generalize List.range' start (input.size + 1 - start) = offsets at hin
  induction offsets with
  | nil => rfl
  | cons offset offsets ih =>
    rw [List.map_cons, h offset (hin offset List.mem_cons_self), List.findSome?_cons]
    cases hfound : found offset with
    | none =>
      rw [firstOutcome_none]
      exact ih fun other hother => hin other (List.mem_cons_of_mem _ hother)
    | some first =>
      refine firstOutcome_of_ne ?_
      intro hnone
      cases hnone

/-! ### The first match of an attempt -/

section

variable {σ : Type} {f : Callback σ}

/-- A run that stops at the first match comes to the first that is noted by one that always goes on,
and otherwise to what that one comes to. -/
theorem run_firstOnly (hf : ∀ gathered found, (f gathered found).2 = .goOn) (p : Program)
    (input : Array UInt8) (start limit n : Nat) (seen : List Match) (gathered : σ)
    (s : MachineState) :
    ∃ found, (run p input start limit (noting f) n (seen, gathered) s).2.1.1 = seen ++ found ∧
      (run p input start limit firstOnly n () s).1 =
        match found.head? with
        | some first => .ok (some first)
        | none => (run p input start limit f n gathered s).1 := by
  induction n generalizing s with
  | zero => exact ⟨[], (List.append_nil seen).symm, rfl⟩
  | succ n ih =>
    simp only [run]
    cases Machine.step p input s with
    | running s => exact ih s
    | accepted s =>
      have hgo := hf gathered (s.toMatch start)
      dsimp only [noting, firstOnly]
      generalize f gathered (s.toMatch start) = answer at hgo ⊢
      obtain ⟨gathered', action⟩ := answer
      cases hgo
      -- Whatever is noted from here on comes after this match.
      obtain ⟨rest, hrest⟩ := prefix_run_noting p input start limit f n
        (seen ++ [s.toMatch start]) gathered' { s with mode := .backtracking }
      refine ⟨s.toMatch start :: rest, ?_, rfl⟩
      rw [← List.append_cons] at hrest
      exact hrest.symm
    | exhausted | overflowed | malformed => exact ⟨[], (List.append_nil seen).symm, rfl⟩

theorem matchAt_eq_head (hf : ∀ gathered found, (f gathered found).2 = .goOn) (m : Matcher)
    (input : Array UInt8) (offset : Nat) (gathered : σ) :
    (m.matchAt input offset).1 =
      match (m.reported input offset f gathered).head? with
      | some first => .ok (some first)
      | none => (m.tryMatch input offset f gathered).outcome := by
  by_cases hin : offset ≤ input.size
  · rw [matchAt, reported, tryMatch_eq m hin, tryMatch_eq m hin, tryMatch_eq m hin]
    obtain ⟨found, hnoted, hfirst⟩ := run_firstOnly hf m.program input offset m.stepLimit
      m.stepLimit [] gathered (.initial offset m.frames m.captures m.peak)
    rw [List.nil_append] at hnoted
    dsimp only
    rw [hfirst, hnoted]
  · rw [matchAt, reported, tryMatch, tryMatch, tryMatch, if_neg hin, if_neg hin, if_neg hin]
    rfl

end

/-! ### `findAt` -/

/-- **`findAt` comes to what the leftmost attempt comes to that has anything but "no match" to
report**: a match with its captures, or an error.  The attempts are those of `matchAt` at all the
offsets from `start` to the end of the input, each with the buffers as they are before the search,
also if the pattern is anchored and `findAt` makes at most one of them.  What `matchAt` comes to is
the first of the matches that `tryMatch` reports to a callback that always goes on; if it reports
none, it is what `tryMatch` comes to.

All this is so for any limit that lets an attempt make the two steps in which an anchor fails; no
more of them need suffice. -/
theorem findAt_leftmost (m : Matcher) (hlimit : 2 ≤ m.stepLimit) (input : Array UInt8)
    (start : Nat) :
    (m.findAt input start).1 =
        firstOutcome (m.outcomes input start (input.size + 1 - start)) ∧
      ∀ {σ : Type} (f : Callback σ) (gathered : σ) (offset : Nat),
        (∀ gathered found, (f gathered found).2 = .goOn) →
        (m.matchAt input offset).1 =
          match (m.reported input offset f gathered).head? with
          | some first => .ok (some first)
          | none => (m.tryMatch input offset f gathered).outcome := by
  refine ⟨m.findAt_eq_firstOutcome hlimit input start, ?_⟩
  intro σ f gathered offset hf
  exact matchAt_eq_head hf m input offset gathered

/-- On `baa`, a matcher for `<a>+a` finds nothing at the offset 0, and at 1 the only match that is
reported there; with one slot for captures less it runs out of them at 1, and does not go on. -/
theorem findAt_leftmost_givingBack :
    let m := ofRegex .givingBack 2 2
    let input : Array UInt8 := #[0x62, 0x61, 0x61]
    2 ≤ m.stepLimit ∧ (∀ all found, (collectAll all found).2 = .goOn) ∧
      (m.findAt input 0).1 = firstOutcome (m.outcomes input 0 4) ∧
      m.outcomes input 0 4 =
        [.ok none, .ok (some ⟨1, 3, [⟨0, 1, 2⟩]⟩), .ok none, .ok none] ∧
      m.reported input 1 collectAll [] = [⟨1, 3, [⟨0, 1, 2⟩]⟩] ∧
      (m.matchAt input 1).1 = .ok (some ⟨1, 3, [⟨0, 1, 2⟩]⟩) ∧
      ((ofRegex .givingBack 2 1).findAt input 0).1 = .error (.captureBufferExhausted 1) := by
  intro m input
  have hlimit : 2 ≤ m.stepLimit := by decide
  have hgo : ∀ all found, (collectAll all found).2 = .goOn := fun _ _ => rfl
  obtain ⟨hfind, hfirst⟩ := findAt_leftmost m hlimit input 0
  have hreported : m.reported input 1 collectAll [] = [⟨1, 3, [⟨0, 1, 2⟩]⟩] := by decide +kernel
  refine ⟨hlimit, hgo, hfind, by decide +kernel, hreported, ?_, by decide +kernel⟩
  rw [hfirst collectAll [] 1 hgo, hreported]
  rfl

end Matcher

end BoundedRegex
