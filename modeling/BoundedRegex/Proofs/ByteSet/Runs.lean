import BoundedRegex.ByteSet.Basic

/-!
# Runs of a set of bytes

The runs of a set are built from its last byte to its first, each byte joined to the run behind it or
put in front as a run of its own (`ByteSet.runsFrom`).  What comes of it is the maximal runs of bits
that are set, in ascending order (`ByteSet.listsRuns_runs`): a byte is in one of them exactly when its
bit is set (`inRanges_runs`), and between two of them there is a byte whose bit is not.
-/

namespace BoundedRegex.ByteSet

/-- The runs among the bytes from `first` on. -/
def runsFrom (s : ByteSet) (first count : Nat) : List (UInt8 × UInt8) :=
  ((List.range' first count).map UInt8.ofNat).foldr
    (fun b acc => if s.bit b then prependRun b acc else acc) []

theorem runs_eq_runsFrom (s : ByteSet) : s.runs = s.runsFrom 0 256 := by
  rw [runs, runsFrom, allBytes, List.range_eq_range']

/-- Whether a byte is in one of the ranges. -/
def inRanges (list : List (UInt8 × UInt8)) (b : UInt8) : Bool :=
  list.any fun (lo, hi) => lo ≤ b && b ≤ hi

theorem inRanges_cons {lo hi : UInt8} {rest : List (UInt8 × UInt8)} {b : UInt8} :
    inRanges ((lo, hi) :: rest) b = true ↔
      (lo.toNat ≤ b.toNat ∧ b.toNat ≤ hi.toNat) ∨ inRanges rest b = true := by
  simp [inRanges, UInt8.le_iff_toNat_le]

/-- Runs start at a byte or later, and none of them ends before it starts. -/
def OrderedFrom (first : Nat) (runs : List (UInt8 × UInt8)) : Prop :=
  ∀ run ∈ runs, first ≤ run.1.toNat ∧ run.1.toNat ≤ run.2.toNat

theorem OrderedFrom.mono {a b : Nat} {runs : List (UInt8 × UInt8)} (h : OrderedFrom b runs)
    (hab : a ≤ b) : OrderedFrom a runs := fun run hr =>
  ⟨Nat.le_trans hab (h run hr).1, (h run hr).2⟩

section

variable {b : UInt8} {runs : List (UInt8 × UInt8)} (h : OrderedFrom (b.toNat + 1) runs)
include h

theorem orderedFrom_prependRun : OrderedFrom b.toNat (prependRun b runs) := by
  have hself : b.toNat ≤ b.toNat ∧ b.toNat ≤ b.toNat := ⟨Nat.le_refl _, Nat.le_refl _⟩
  have hruns := h.mono (Nat.le_succ _)
  cases runs with
  | nil => exact List.forall_mem_singleton.2 hself
  | cons run rest =>
    obtain ⟨lo, hi⟩ := run
    rw [prependRun]
    split
    · -- The byte joins the run that starts right behind it.
      obtain ⟨hlo, hhi⟩ := h (lo, hi) List.mem_cons_self
      dsimp only at hlo hhi
      refine List.forall_mem_cons.2 ⟨⟨Nat.le_refl _, by dsimp only; omega⟩, ?_⟩
      exact fun r hr => hruns r (List.mem_cons_of_mem _ hr)
    · exact List.forall_mem_cons.2 ⟨hself, hruns⟩

theorem inRanges_prependRun (c : UInt8) :
    inRanges (prependRun b runs) c = true ↔ c = b ∨ inRanges runs c = true := by
  have hself : b.toNat ≤ c.toNat ∧ c.toNat ≤ b.toNat ↔ c = b := by
    rw [← UInt8.toNat_inj]
    omega
  cases runs with
  | nil => rw [prependRun, inRanges_cons, hself]
  | cons run rest =>
    obtain ⟨lo, hi⟩ := run
    rw [prependRun]
    split
    · obtain ⟨hlo, hhi⟩ := h (lo, hi) List.mem_cons_self
      dsimp only at hlo hhi
      rw [inRanges_cons, inRanges_cons, ← or_assoc, ← UInt8.toNat_inj]
      refine or_congr ?_ Iff.rfl
      omega
    · rw [inRanges_cons, hself]

end

theorem runsFrom_succ (s : ByteSet) (first count : Nat) :
    s.runsFrom first (count + 1) =
      if s.bit (UInt8.ofNat first) then
        prependRun (UInt8.ofNat first) (s.runsFrom (first + 1) count)
      else s.runsFrom (first + 1) count := by
  rw [runsFrom, List.range'_succ]
  rfl

/-- The runs from a byte on hold the bytes from there on whose bits are set. -/
theorem runsFrom_spec (s : ByteSet) {first count : Nat} (h : first + count = 256) :
    OrderedFrom first (s.runsFrom first count) ∧
      ∀ b, inRanges (s.runsFrom first count) b = true ↔ first ≤ b.toNat ∧ s.bit b = true := by
  induction count generalizing first with
  | zero =>
    refine ⟨fun run hr => absurd hr List.not_mem_nil, ?_⟩
    intro b
    constructor
    · intro hb
      cases hb
    · rintro ⟨hb, -⟩
      have hlt := b.toNat_lt
      omega
  | succ count ih =>
    obtain ⟨hruns, hin⟩ := @ih (first + 1) (by omega)
    have hfirst : (UInt8.ofNat first).toNat = first :=
      UInt8.toNat_ofNat_of_lt' (by simp only [UInt8.size]; omega)
    rw [runsFrom_succ]
    generalize UInt8.ofNat first = c at hfirst
    subst hfirst
    -- The bytes from `c` on are `c` and those behind it.
    have hfrom (b : UInt8) : c.toNat ≤ b.toNat ↔ b = c ∨ c.toNat + 1 ≤ b.toNat := by
      rw [← UInt8.toNat_inj]
      omega
    by_cases hbit : s.bit c = true
    · rw [if_pos hbit]
      refine ⟨orderedFrom_prependRun hruns, ?_⟩
      intro b
      rw [inRanges_prependRun hruns, hin, hfrom]
      constructor
      · rintro (rfl | ⟨hlt, hb⟩)
        · exact ⟨Or.inl rfl, hbit⟩
        · exact ⟨Or.inr hlt, hb⟩
      · rintro ⟨rfl | hlt, hb⟩
        · exact Or.inl rfl
        · exact Or.inr ⟨hlt, hb⟩
    · rw [if_neg hbit]
      refine ⟨hruns.mono (Nat.le_succ _), ?_⟩
      intro b
      rw [hin, hfrom]
      constructor
      · rintro ⟨hlt, hb⟩
        exact ⟨Or.inr hlt, hb⟩
      · rintro ⟨rfl | hlt, hb⟩
        · exact absurd hb hbit
        · exact ⟨hlt, hb⟩

/-- A byte is in a run exactly when its bit is set. -/
theorem inRanges_runs (s : ByteSet) (b : UInt8) : inRanges s.runs b = s.bit b := by
  rw [runs_eq_runsFrom, Bool.eq_iff_iff, (s.runsFrom_spec rfl).2]
  exact ⟨And.right, fun h => ⟨Nat.zero_le _, h⟩⟩

/-! ### Maximal runs -/

/-- Ranges in ascending order, none of them next to another. -/
def Apart (ranges : List (UInt8 × UInt8)) : Prop :=
  ranges.Pairwise fun r r' => r.2.toNat + 1 < r'.1.toNat

theorem apart_prependRun {b : UInt8} {runs : List (UInt8 × UInt8)}
    (hordered : OrderedFrom (b.toNat + 1) runs) (h : Apart runs) : Apart (prependRun b runs) := by
  cases runs with
  | nil => exact List.pairwise_singleton ..
  | cons run rest =>
    obtain ⟨lo, hi⟩ := run
    obtain ⟨hrest, hapart⟩ := List.pairwise_cons.1 h
    rw [prependRun]
    split
    · -- The run that the byte joins ends where it did.
      exact List.pairwise_cons.2 ⟨hrest, hapart⟩
    · next hne =>
      obtain ⟨hlo, hhi⟩ := hordered (lo, hi) List.mem_cons_self
      dsimp only at hlo hhi hrest
      refine List.pairwise_cons.2 ⟨List.forall_mem_cons.2 ⟨?_, fun r hr => ?_⟩, h⟩
      · dsimp only
        omega
      · have hr := hrest r hr
        dsimp only
        omega

theorem apart_runsFrom (s : ByteSet) {first count : Nat} (h : first + count = 256) :
    Apart (s.runsFrom first count) := by
  induction count generalizing first with
  | zero => exact List.Pairwise.nil
  | succ count ih =>
    have hfirst : (UInt8.ofNat first).toNat = first :=
      UInt8.toNat_ofNat_of_lt' (by simp only [UInt8.size]; omega)
    have hordered : OrderedFrom (first + 1) (s.runsFrom (first + 1) count) :=
      (s.runsFrom_spec (by omega)).1
    rw [runsFrom_succ]
    split
    · exact apart_prependRun (hfirst.symm ▸ hordered) (ih (by omega))
    · exact ih (by omega)

/-- The bits from one byte to another are set, and those on both sides, if any, are not. -/
structure IsRun (s : ByteSet) (lo hi : UInt8) : Prop where
  le : lo.toNat ≤ hi.toNat
  set : ∀ b : UInt8, lo.toNat ≤ b.toNat → b.toNat ≤ hi.toNat → s.bit b = true
  before : ∀ b : UInt8, b.toNat + 1 = lo.toNat → s.bit b = false
  behind : ∀ b : UInt8, b.toNat = hi.toNat + 1 → s.bit b = false

section

variable {s : ByteSet} {lo hi lo' hi' b : UInt8} (h : s.IsRun lo hi) (h' : s.IsRun lo' hi')
include h h'

/-- A run does not start within another, or right behind it. -/
theorem IsRun.not_start (hlo : lo'.toNat < lo.toNat) : ¬lo.toNat ≤ hi'.toNat + 1 := by
  intro hhi
  have hlt := lo.toNat_lt
  have hprev : (UInt8.ofNat (lo.toNat - 1)).toNat = lo.toNat - 1 :=
    UInt8.toNat_ofNat_of_lt' (by simp only [UInt8.size]; omega)
  have hset := h'.set (.ofNat (lo.toNat - 1)) (by omega) (by omega)
  rw [h.before _ (by omega)] at hset
  cases hset

/-- A run does not end within another, or right before it. -/
theorem IsRun.not_end (hhi : hi.toNat < hi'.toNat) : ¬lo'.toNat ≤ hi.toNat + 1 := by
  intro hlo
  have hlt := hi'.toNat_lt
  have hnext : (UInt8.ofNat (hi.toNat + 1)).toNat = hi.toNat + 1 :=
    UInt8.toNat_ofNat_of_lt' (by simp only [UInt8.size]; omega)
  have hset := h'.set (.ofNat (hi.toNat + 1)) (by omega) (by omega)
  rw [h.behind _ hnext] at hset
  cases hset

/-- Two runs that have a byte in common are one. -/
theorem IsRun.unique (hb : lo.toNat ≤ b.toNat ∧ b.toNat ≤ hi.toNat)
    (hb' : lo'.toNat ≤ b.toNat ∧ b.toNat ≤ hi'.toNat) : lo = lo' ∧ hi = hi' := by
  rw [← UInt8.toNat_inj, ← UInt8.toNat_inj]
  have hstart := h.not_start h'
  have hstart' := h'.not_start h
  have hend := h.not_end h'
  have hend' := h'.not_end h
  omega

end

/-- A list of the maximal runs of bits that are set, in ascending order. -/
structure ListsRuns (s : ByteSet) (runs : List (UInt8 × UInt8)) : Prop where
  apart : Apart runs
  mem_iff : ∀ lo hi, (lo, hi) ∈ runs ↔ s.IsRun lo hi
  bit_iff : ∀ b, s.bit b = true ↔ ∃ r ∈ runs, r.1 ≤ b ∧ b ≤ r.2

/-- Of two ranges apart, one is the other or they are apart one way or the other. -/
theorem Apart.eq_or {ranges : List (UInt8 × UInt8)} (h : Apart ranges) :
    ∀ r ∈ ranges, ∀ r' ∈ ranges,
      r = r' ∨ r.2.toNat + 1 < r'.1.toNat ∨ r'.2.toNat + 1 < r.1.toNat :=
  List.Pairwise.forall_of_forall_of_flip (fun _ _ => .inl rfl) (h.imp fun hr => .inr (.inl hr))
    (h.imp fun hr => .inr (.inr hr))

/-- Where ranges apart hold the bits that are set, each of them is a run. -/
theorem Apart.isRun {s : ByteSet} {ranges : List (UInt8 × UInt8)} {lo hi : UInt8}
    (h : Apart ranges) (hset : ∀ b, s.bit b = true ↔ ∃ r ∈ ranges, r.1 ≤ b ∧ b ≤ r.2)
    (hmem : (lo, hi) ∈ ranges) (hle : lo.toNat ≤ hi.toNat) : s.IsRun lo hi := by
  simp only [UInt8.le_iff_toNat_le] at hset
  -- A bit that is set outside the range is in another one, and that is apart.
  have hother (b : UInt8) (hb : s.bit b = true) :
      (lo.toNat ≤ b.toNat ∧ b.toNat ≤ hi.toNat) ∨ b.toNat + 1 < lo.toNat ∨
        hi.toNat + 1 < b.toNat := by
    obtain ⟨r, hr, hin⟩ := (hset b).1 hb
    rcases h.eq_or r hr (lo, hi) hmem with rfl | hapart | hapart
    · exact .inl hin
    · exact .inr (.inl (by dsimp only at hapart; omega))
    · exact .inr (.inr (by dsimp only at hapart; omega))
  refine ⟨hle, fun b hlo hhi => (hset b).2 ⟨_, hmem, hlo, hhi⟩, fun b hb => ?_, fun b hb => ?_⟩
  all_goals
    refine eq_false_of_ne_true fun htrue => ?_
    have hplace := hother b htrue
    omega

/-- **The runs of a set are its maximal runs.** -/
theorem listsRuns_runs (s : ByteSet) : s.ListsRuns s.runs := by
  have hset (b : UInt8) : s.bit b = true ↔ ∃ r ∈ s.runs, r.1 ≤ b ∧ b ≤ r.2 := by
    rw [← inRanges_runs]
    simp [inRanges]
  have hapart : Apart s.runs := s.runs_eq_runsFrom ▸ s.apart_runsFrom rfl
  have hordered : OrderedFrom 0 s.runs := s.runs_eq_runsFrom ▸ (s.runsFrom_spec rfl).1
  have hrun {lo hi : UInt8} (hmem : (lo, hi) ∈ s.runs) : s.IsRun lo hi :=
    hapart.isRun hset hmem (hordered _ hmem).2
  refine ⟨hapart, fun lo hi => ⟨hrun, fun h => ?_⟩, hset⟩
  -- The first byte of a run is in one of the list, which is then the same.
  obtain ⟨r, hr, hlo, hhi⟩ := (hset lo).1 (h.set lo (Nat.le_refl _) h.le)
  rw [UInt8.le_iff_toNat_le] at hlo hhi
  obtain ⟨rfl, rfl⟩ := h.unique (hrun hr) ⟨Nat.le_refl _, h.le⟩ ⟨hlo, hhi⟩
  exact hr

end BoundedRegex.ByteSet
