import BoundedRegex.Proofs.Match.Enumeration

/-!
# Calls of a matcher

A matcher whose program, on any input and from any offset, keeps within as many frames as the
matcher has, never runs out of frames, whatever is called and in whatever order.  With enough steps
`tryMatch` gives the callback the matches one by one.
-/

namespace BoundedRegex

/-- Whatever the input and the offset, attempts keep within `d` frames, and the matcher has as many
and has never had more alive. -/
structure Matcher.Fits (d : Nat) (m : Matcher) : Prop where
  enumerates : ∀ (input : Array UInt8) (start : Nat), start ≤ input.size →
    ∃ points, Enumerates m.program input d (.running 0 start [] []) points
  le_size : d ≤ m.frames.size
  peak_le : m.peak ≤ d

namespace Matcher

variable {d : Nat} {m m' : Matcher}

/-- An attempt within the input is a run from its start. -/
theorem tryMatch_eq {σ : Type} (m : Matcher) {input : Array UInt8} {start : Nat}
    (hstart : start ≤ input.size) (f : Callback σ) (gathered : σ) :
    m.tryMatch input start f gathered =
      let (outcome, gathered, s) :=
        run m.program input start m.stepLimit f m.stepLimit gathered
          (.initial start m.frames m.captures m.peak)
      { outcome, gathered
        matcher := { m with frames := s.frames, captures := s.captures, peak := s.peak } } := by
  unfold tryMatch
  rw [if_pos hstart]

namespace Fits

/-- All the states that an attempt may pass through keep to the bound. -/
theorem of_reaches (h : m.Fits d) {input : Array UInt8} {start : Nat} (hstart : start ≤ input.size)
    {s : MachineState}
    (hs : Machine.Reaches m.program input (.initial start m.frames m.captures m.peak) s) :
    s.sp ≤ d ∧ s.peak ≤ d := by
  obtain ⟨points, henum⟩ := h.enumerates input start hstart
  rw [← MachineState.config_initial start m.frames m.captures m.peak] at henum
  obtain ⟨-, ⟨rest, hrest⟩, -, hpeak⟩ :=
    henum.of_reaches (MachineState.sane_initial ..) h.le_size hs
  exact ⟨by rw [← s.length_stack_config]; exact hrest.length_le,
    Nat.le_trans hpeak (Nat.max_le.2 ⟨h.peak_le, Nat.le_refl d⟩)⟩

theorem tryMatch {σ : Type} (h : m.Fits d) (input : Array UInt8) (start : Nat) (f : Callback σ)
    (gathered : σ) :
    (∀ capacity,
      (m.tryMatch input start f gathered).outcome ≠ .error (.scratchExhausted capacity)) ∧
      (m.tryMatch input start f gathered).matcher.Fits d := by
  by_cases hstart : start ≤ input.size
  · obtain ⟨points, henum⟩ := h.enumerates input start hstart
    rw [← MachineState.config_initial start m.frames m.captures m.peak] at henum
    obtain ⟨hne, hframes, hpeak⟩ := henum.run_within f start m.stepLimit
      (MachineState.sane_initial ..) h.le_size m.stepLimit gathered
    rw [tryMatch_eq m hstart]
    refine ⟨hne, h.enumerates, ?_, Nat.le_trans hpeak (Nat.max_le.2 ⟨h.peak_le, Nat.le_refl d⟩)⟩
    show d ≤ (run m.program input start m.stepLimit f m.stepLimit gathered _).2.2.frames.size
    rw [hframes]
    exact h.le_size
  · rw [Matcher.tryMatch, if_neg hstart]
    exact ⟨fun _ => nofun, h⟩

theorem matchAt (h : m.Fits d) (input : Array UInt8) (start : Nat) :
    (∀ capacity, (m.matchAt input start).1 ≠ .error (.scratchExhausted capacity)) ∧
      (m.matchAt input start).2.Fits d :=
  h.tryMatch input start firstOnly ()

theorem search (h : m.Fits d) (input : Array UInt8) (start count : Nat) :
    (∀ capacity, (m.search input start count).1 ≠ .error (.scratchExhausted capacity)) ∧
      (m.search input start count).2.Fits d := by
  induction count generalizing m start with
  | zero => exact ⟨fun _ => nofun, h⟩
  | succ count ih =>
    obtain ⟨hne, hfits⟩ := h.matchAt input start
    rw [Matcher.search]
    split
    · next heq =>
      rw [heq] at hfits
      exact ih hfits (start + 1)
    · exact ⟨hne, hfits⟩

theorem findAt (h : m.Fits d) (input : Array UInt8) (start : Nat) :
    (∀ capacity, (m.findAt input start).1 ≠ .error (.scratchExhausted capacity)) ∧
      (m.findAt input start).2.Fits d := by
  unfold Matcher.findAt
  split
  · exact h.search input start _
  · exact h.search input start _

/-- No call makes a matcher unfit. -/
theorem after (h : m.Fits d) (hm : m.After m') : m'.Fits d := by
  induction hm with
  | start => exact h
  | tryMatch _ input start f gathered ih => exact (ih.tryMatch input start f gathered).2
  | matchAt _ input start ih => exact (ih.matchAt input start).2
  | findAt _ input start ih => exact (ih.findAt input start).2

end Fits

/-! ### Matches -/

/-- The callback that keeps every match. -/
def collectAll : Callback (List Match) := fun all found => (all ++ [found], .goOn)

/-- All the matches that start at an offset. -/
def enumeration (m : Matcher) (input : Array UInt8) (start : Nat) : Attempt (List Match) :=
  m.tryMatch input start collectAll []

/-- What a callback keeps up on the matches of an attempt, `tryMatch` keeps up, whatever the buffers;
and the match with which it ends is one of them. -/
theorem tryMatch_keeps {input : Array UInt8} {start : Nat} {points : List Point}
    (hstart : start ≤ input.size)
    (h : Enumerates m.program input d (.running 0 start [] []) points) {σ : Type} (f : Callback σ)
    {Keeps : σ → Prop}
    (hf : ∀ gathered, ∀ t ∈ points, Keeps gathered → Keeps (f gathered (t.toMatch start)).1)
    {gathered : σ} (hg : Keeps gathered) :
    Keeps (m.tryMatch input start f gathered).gathered ∧
      ∀ found, (m.tryMatch input start f gathered).outcome = .ok (some found) →
        ∃ t ∈ points, found = t.toMatch start := by
  rw [← MachineState.config_initial start m.frames m.captures m.peak] at h
  rw [tryMatch_eq m hstart]
  exact h.run_keeps f start m.stepLimit (MachineState.sane_initial ..) hf m.stepLimit hg

/-- A callback that does what another does, and notes the matches that it is given. -/
def noting {σ : Type} (f : Callback σ) : Callback (List Match × σ) := fun (seen, gathered) found =>
  let (gathered, action) := f gathered found
  ((seen ++ [found], gathered), action)

/-- The matches that an attempt reports to a callback, in order. -/
def reported {σ : Type} (m : Matcher) (input : Array UInt8) (start : Nat) (f : Callback σ)
    (gathered : σ) : List Match :=
  (m.tryMatch input start (noting f) ([], gathered)).gathered.1

/-- Noting the matches changes nothing. -/
theorem run_noting {σ : Type} (p : Program) (input : Array UInt8) (start limit : Nat)
    (f : Callback σ) (n : Nat) (seen : List Match) (gathered : σ) (s : MachineState) :
    (run p input start limit (noting f) n (seen, gathered) s).1 =
        (run p input start limit f n gathered s).1 ∧
      (run p input start limit (noting f) n (seen, gathered) s).2.1.2 =
        (run p input start limit f n gathered s).2.1 ∧
      (run p input start limit (noting f) n (seen, gathered) s).2.2 =
        (run p input start limit f n gathered s).2.2 := by
  induction n generalizing seen gathered s with
  | zero => exact ⟨rfl, rfl, rfl⟩
  | succ n ih =>
    rw [run, run]
    cases Machine.step p input s with
    | running s => exact ih seen gathered s
    | accepted s =>
      dsimp only [noting]
      generalize f gathered (s.toMatch start) = answer
      obtain ⟨gathered', action⟩ := answer
      cases action with
      | goOn => exact ih (seen ++ [s.toMatch start]) gathered' { s with mode := .backtracking }
      | stop => exact ⟨rfl, rfl, rfl⟩
    | exhausted | overflowed | malformed => exact ⟨rfl, rfl, rfl⟩

/-- What has been noted stays noted. -/
theorem prefix_run_noting {σ : Type} (p : Program) (input : Array UInt8) (start limit : Nat)
    (f : Callback σ) (n : Nat) (seen : List Match) (gathered : σ) (s : MachineState) :
    seen <+: (run p input start limit (noting f) n (seen, gathered) s).2.1.1 := by
  induction n generalizing seen gathered s with
  | zero => exact List.prefix_rfl
  | succ n ih =>
    rw [run]
    cases Machine.step p input s with
    | running s => exact ih seen gathered s
    | accepted s =>
      dsimp only [noting]
      generalize f gathered (s.toMatch start) = answer
      obtain ⟨gathered', action⟩ := answer
      cases action with
      | goOn => exact (List.prefix_append seen _).trans (ih _ gathered' _)
      | stop => exact List.prefix_append seen _
    | exhausted | overflowed | malformed => exact List.prefix_rfl

/-- What an attempt reports is what the same attempt reports when nobody takes notes. -/
theorem tryMatch_noting {σ : Type} (m : Matcher) (input : Array UInt8) (start : Nat)
    (f : Callback σ) (gathered : σ) :
    (m.tryMatch input start (noting f) ([], gathered)).outcome =
        (m.tryMatch input start f gathered).outcome ∧
      (m.tryMatch input start (noting f) ([], gathered)).gathered.2 =
        (m.tryMatch input start f gathered).gathered ∧
      (m.tryMatch input start (noting f) ([], gathered)).matcher =
        (m.tryMatch input start f gathered).matcher := by
  by_cases hstart : start ≤ input.size
  · rw [tryMatch_eq m hstart, tryMatch_eq m hstart]
    obtain ⟨houtcome, hgathered, hstate⟩ := run_noting m.program input start m.stepLimit f
      m.stepLimit [] gathered (.initial start m.frames m.captures m.peak)
    exact ⟨houtcome, hgathered, by dsimp only; rw [hstate]⟩
  · rw [tryMatch, tryMatch, if_neg hstart, if_neg hstart]
    exact ⟨rfl, rfl, rfl⟩

/-- The matches that an attempt reports, whatever its callback and its buffers, are among the points
that it enumerates; and so is the match with which it ends. -/
theorem mem_of_reported {input : Array UInt8} {start : Nat} {points : List Point}
    (hstart : start ≤ input.size)
    (h : Enumerates m.program input d (.running 0 start [] []) points) {σ : Type} (f : Callback σ)
    (gathered : σ) :
    (∀ found ∈ m.reported input start f gathered, ∃ t ∈ points, found = t.toMatch start) ∧
      ∀ found, (m.tryMatch input start f gathered).outcome = .ok (some found) →
        ∃ t ∈ points, found = t.toMatch start := by
  have hnoted (noted : List Match × σ) (t : Point) (ht : t ∈ points)
      (hseen : ∀ found ∈ noted.1, ∃ t ∈ points, found = t.toMatch start) :
      ∀ found ∈ (noting f noted (t.toMatch start)).1.1, ∃ t ∈ points, found = t.toMatch start := by
    intro found hfound
    rcases List.mem_append.1 hfound with hfound | hfound
    · exact hseen found hfound
    · exact ⟨t, ht, List.mem_singleton.1 hfound⟩
  obtain ⟨hseen, hfound⟩ := @tryMatch_keeps d m input start points hstart h _ (noting f)
    (fun noted => ∀ found ∈ noted.1, ∃ t ∈ points, found = t.toMatch start) hnoted ([], gathered)
    nofun
  rw [(m.tryMatch_noting input start f gathered).1] at hfound
  exact ⟨hseen, hfound⟩

theorem report_firstOnly (found : List Match) : report firstOnly () found = (found.head?, ()) := by
  cases found <;> rfl

theorem report_collectAll (all found : List Match) :
    report collectAll all found = (none, all ++ found) := by
  induction found generalizing all with
  | nil => rw [report, List.append_nil]
  | cons m rest ih =>
    show report collectAll (all ++ [m]) rest = _
    rw [ih, List.append_assoc, List.singleton_append]

/-- With enough steps `tryMatch` gives the points of an attempt to the callback, and `matchAt` the
first of them. -/
theorem tryMatch_delivers {input : Array UInt8} {start steps : Nat} {points : List Point}
    (hstart : start ≤ input.size)
    (h : Settles m.program input d (.running 0 start [] []) points steps)
    (hd : d ≤ m.frames.size) (hsteps : steps ≤ m.stepLimit) {σ : Type} (f : Callback σ)
    (gathered : σ) :
    Delivers f gathered (points.map (Point.toMatch start)) m.captures.size
      (m.tryMatch input start f gathered).outcome (m.tryMatch input start f gathered).gathered := by
  rw [tryMatch_eq m hstart]
  exact h f start m.stepLimit m.stepLimit gathered _ hsteps (MachineState.sane_initial ..)
    (MachineState.config_initial ..) hd

theorem matchAt_of_delivers {input : Array UInt8} {start : Nat} {found : List Match}
    (h : Delivers firstOnly () found m.captures.size (m.tryMatch input start firstOnly ()).outcome
      (m.tryMatch input start firstOnly ()).gathered) :
    (m.matchAt input start).1 = .ok found.head? ∨
      (m.matchAt input start).1 = .error (.captureBufferExhausted m.captures.size) := by
  rcases h with ⟨ho, -⟩ | ⟨ho, -⟩
  · rw [report_firstOnly] at ho
    exact Or.inl ho
  · exact Or.inr ho

/-- The matches that are kept are the first ones, and all of them if the slots for captures do not
run out. -/
theorem enumeration_of_delivers {input : Array UInt8} {start : Nat} {found : List Match}
    (h : Delivers collectAll [] found m.captures.size (m.enumeration input start).outcome
      (m.enumeration input start).gathered) :
    (m.enumeration input start).gathered <+: found ∧
      ((m.enumeration input start).outcome ≠ .error (.captureBufferExhausted m.captures.size) →
        (m.enumeration input start).outcome = .ok none ∧
          (m.enumeration input start).gathered = found) := by
  rcases h with ⟨ho, hg⟩ | ⟨ho, read, hread, hg⟩
  · rw [report_collectAll, List.nil_append] at ho hg
    exact ⟨hg ▸ List.prefix_rfl, fun _ => ⟨ho, hg⟩⟩
  · rw [report_collectAll, List.nil_append] at hg
    exact ⟨(Prod.mk.inj hg).2 ▸ hread, fun hne => absurd ho hne⟩

end Matcher

end BoundedRegex
