import BoundedRegex.Cli.Scan
import BoundedRegex.Proofs.Leftmost
import BoundedRegex.Proofs.Loaded
import BoundedRegex.Proofs.Stored

/-!
# Scanning an input

A scan searches again and again, each time from behind the match that it found last.

* `Matcher.first_of_findAt`, `Matcher.none_of_findAt`: what a search finds, and what it passes over,
  told by attempts at single offsets.
* `Cli.Scan.Lists`: the matches of an input from an offset on, each as far left as it can be without
  lying over the one before.  A search puts one in front of those behind it (`Cli.Scan.Lists.cons`).
* `Compiler.scan_leftmost`: a scan lists these, and ends by itself.
-/

namespace BoundedRegex

namespace Matcher

variable {m : Matcher} {input : Array UInt8} {start count : Nat} {found : Match}

/-! ### Searches -/

theorem matchAt_beyond (h : input.size < start) : (m.matchAt input start).1 = .ok none := by
  rw [matchAt, tryMatch, if_neg (Nat.not_le_of_lt h)]

theorem none_of_firstOutcome (h : firstOutcome (m.outcomes input start count) = .ok none)
    {offset : Nat} (hstart : start ≤ offset) (hlt : offset < start + count) :
    (m.matchAt input offset).1 = .ok none := by
  induction count generalizing start with
  | zero => omega
  | succ count ih =>
    rw [outcomes_succ] at h
    have hfirst : (m.matchAt input start).1 = .ok none := by
      by_contra hne
      rw [firstOutcome_of_ne hne] at h
      exact hne h
    rw [hfirst, firstOutcome_none] at h
    rcases Nat.eq_or_lt_of_le hstart with rfl | hstart
    · exact hfirst
    · exact ih h hstart (by omega)

theorem exists_of_firstOutcome
    (h : firstOutcome (m.outcomes input start count) = .ok (some found)) :
    ∃ first, start ≤ first ∧ (m.matchAt input first).1 = .ok (some found) ∧
      ∀ offset, start ≤ offset → offset < first → (m.matchAt input offset).1 = .ok none := by
  induction count generalizing start with
  | zero => cases h
  | succ count ih =>
    rw [outcomes_succ] at h
    by_cases hnone : (m.matchAt input start).1 = .ok none
    · rw [hnone, firstOutcome_none] at h
      obtain ⟨first, hle, hfound, hbefore⟩ := ih h
      refine ⟨first, Nat.le_of_succ_le hle, hfound, fun offset hstart hlt => ?_⟩
      rcases Nat.eq_or_lt_of_le hstart with rfl | hstart
      · exact hnone
      · exact hbefore offset hstart hlt
    · rw [firstOutcome_of_ne hnone] at h
      exact ⟨start, Nat.le_refl _, h, fun offset hstart hlt => by omega⟩

/-- A search that finds nothing has nothing to find. -/
theorem none_of_findAt (hlimit : 2 ≤ m.stepLimit) (h : (m.findAt input start).1 = .ok none)
    {offset : Nat} (hstart : start ≤ offset) : (m.matchAt input offset).1 = .ok none := by
  by_cases hin : offset ≤ input.size
  · rw [findAt_eq_firstOutcome m hlimit] at h
    exact none_of_firstOutcome h hstart (by omega)
  · exact matchAt_beyond (Nat.lt_of_not_le hin)

/-- What a search finds is what an attempt at its start finds, and there is nothing further left. -/
theorem first_of_findAt (hp : m.program.Sound) (hlimit : 2 ≤ m.stepLimit)
    (h : (m.findAt input start).1 = .ok (some found)) :
    start ≤ found.start ∧ found.Ordered input.size ∧
      (m.matchAt input found.start).1 = .ok (some found) ∧
      ∀ offset, start ≤ offset → offset < found.start → (m.matchAt input offset).1 = .ok none := by
  rw [findAt_eq_firstOutcome m hlimit] at h
  obtain ⟨first, hle, hfound, hbefore⟩ := exists_of_firstOutcome h
  obtain ⟨rfl, hordered⟩ := matchAt_safe hp hfound
  exact ⟨hle, hordered, hfound, hbefore⟩

theorem like_findAt (m : Matcher) (input : Array UInt8) (start : Nat) :
    (m.findAt input start).2.Like m :=
  m.like_afterCall (.findAt input start)

end Matcher

namespace Cli.Scan

/-- Some matches are those of an input from an offset on, from left to right and none over another:
* each is what an attempt at its start finds;
* each starts further right than the one before it, and not before the end of that;
* wherever an attempt finds a match, there is the start of one of them, or the inside.

There are not more of them than offsets. -/
structure Lists (m : Matcher) (input : Array UInt8) (start : Nat) (found : List Match) : Prop where
  within : ∀ a ∈ found, start ≤ a.start ∧ a.stop ≤ input.size
  matched : ∀ a ∈ found, (m.matchAt input a.start).1 = .ok (some a)
  apart : found.Pairwise fun a b => a.start < b.start ∧ a.stop ≤ b.start
  covered : ∀ offset a, start ≤ offset → (m.matchAt input offset).1 = .ok (some a) →
    ∃ b ∈ found, b.start = offset ∨ b.start < offset ∧ offset < b.stop
  length_le : found.length ≤ input.size + 1 - start

variable {m m' : Matcher} {input : Array UInt8} {start rounds : Nat} {a : Match}
  {found : List Match}

theorem resumeAfter_cases (h : a.start ≤ a.stop) :
    a.start < resumeAfter a ∧ a.stop ≤ resumeAfter a ∧
      (resumeAfter a ≤ a.start + 1 ∨ resumeAfter a = a.stop) := by
  unfold resumeAfter
  split <;> omega

namespace Lists

/-- Where no attempt finds a match, there is none to list. -/
theorem nil (h : ∀ offset, start ≤ offset → (m.matchAt input offset).1 = .ok none) :
    Lists m input start [] where
  within := nofun
  matched := nofun
  apart := .nil
  covered offset a hstart ha := by
    rw [h offset hstart] at ha
    cases ha
  length_le := Nat.zero_le _

/-- What an attempt comes to does not depend on what is in the buffers. -/
theorem of_like (hlike : m.Like m') (h : Lists m input start found) :
    Lists m' input start found where
  within := h.within
  matched a ha := hlike.matchAt_eq input a.start ▸ h.matched a ha
  apart := h.apart
  covered offset a hstart ha := h.covered offset a hstart (hlike.matchAt_eq input offset ▸ ha)
  length_le := h.length_le

/-- **The leftmost match comes in front of those behind it.** -/
theorem cons (hle : start ≤ a.start) (hordered : a.Ordered input.size)
    (ha : (m.matchAt input a.start).1 = .ok (some a))
    (hbefore : ∀ offset, start ≤ offset → offset < a.start →
      (m.matchAt input offset).1 = .ok none)
    (h : Lists m input (resumeAfter a) found) : Lists m input start (a :: found) := by
  obtain ⟨hstart, hstop, hresume⟩ := resumeAfter_cases hordered.start_le
  have hsize : a.stop ≤ input.size := hordered.stop_le
  refine ⟨?_, ?_, ?_, ?_, ?_⟩
  · intro b hb
    rcases List.mem_cons.1 hb with rfl | hb
    · exact ⟨hle, hsize⟩
    · obtain ⟨hb, hb'⟩ := h.within b hb
      exact ⟨by omega, hb'⟩
  · intro b hb
    rcases List.mem_cons.1 hb with rfl | hb
    · exact ha
    · exact h.matched b hb
  · refine List.pairwise_cons.2 ⟨fun b hb => ?_, h.apart⟩
    have hb := (h.within b hb).1
    omega
  · intro offset b hoffset hb
    -- Before the match there is none, and from where the search goes on they are listed.
    rcases Nat.lt_or_ge offset a.start with hlt | hge
    · rw [hbefore offset hoffset hlt] at hb
      cases hb
    rcases Nat.lt_or_ge offset (resumeAfter a) with hlt | hbehind
    · exact ⟨a, List.mem_cons_self, by omega⟩
    · obtain ⟨d, hd, hcovers⟩ := h.covered offset b hbehind hb
      exact ⟨d, List.mem_cons_of_mem a hd, hcovers⟩
  · have hlength := h.length_le
    have hordered := hordered.start_le
    rw [List.length_cons]
    omega

end Lists

/-! ### The rounds of a scan -/

/-- A search for each offset that is left is enough: further ones make no difference. -/
theorem searches_eq_of_le (hp : m.program.Sound) {more : Nat}
    (hrounds : input.size + 1 ≤ start + rounds) (hle : rounds ≤ more) :
    searches m input more start = searches m input rounds start := by
  induction rounds generalizing m start more with
  | zero =>
    have hbeyond : ¬start ≤ input.size := by omega
    cases more with
    | zero => rfl
    | succ more => rw [searches, searches, if_neg hbeyond]
  | succ rounds ih =>
    obtain ⟨more, rfl⟩ := Nat.exists_eq_add_of_le' (Nat.le_of_add_left_le hle)
    rw [searches, searches]
    split
    · have hlike := m.like_findAt input start
      split
      · rfl
      · rfl
      · next a m' heq =>
        rw [heq] at hlike
        obtain ⟨hstart, hordered⟩ := Matcher.findAt_safe hp (congrArg Prod.fst heq)
        have hresume := (resumeAfter_cases hordered.start_le).1
        rw [ih (hlike.program ▸ hp) (by omega) (Nat.le_of_add_le_add_right hle)]
    · rfl

/-- **A scan that meets no error lists the matches from where it starts.** -/
theorem lists_searches (hp : m.program.Sound) (hlimit : 2 ≤ m.stepLimit)
    (hrounds : input.size + 1 ≤ start + rounds)
    (h : (searches m input rounds start).error = none) :
    Lists m input start (searches m input rounds start).found := by
  induction rounds generalizing m start with
  | zero => exact .nil fun offset hstart => Matcher.matchAt_beyond (by omega)
  | succ rounds ih =>
    have hlike := m.like_findAt input start
    rw [searches] at h ⊢
    split at h
    · next hin =>
      rw [if_pos hin]
      generalize hfind : m.findAt input start = answer at h hlike ⊢
      obtain ⟨outcome, m'⟩ := answer
      match outcome with
      | .error e => cases h
      | .ok none =>
        exact .nil fun offset hstart =>
          Matcher.none_of_findAt hlimit (congrArg Prod.fst hfind) hstart
      | .ok (some a) =>
        obtain ⟨hle, hordered, ha, hbefore⟩ :=
          Matcher.first_of_findAt hp hlimit (congrArg Prod.fst hfind)
        have hresume := (resumeAfter_cases hordered.start_le).1
        have hlater := ih (hlike.program ▸ hp) (hlike.stepLimit ▸ hlimit) (by omega) h
        exact (hlater.of_like hlike).cons hle hordered ha hbefore
    · next hout =>
      rw [if_neg hout]
      exact .nil fun offset hstart => Matcher.matchAt_beyond (by omega)

/-- With enough steps for each attempt, a scan does not run out of them. -/
theorem searches_conclusive {k : Nat}
    (h : ∀ start ≤ input.size, EndsWithin m.program input (.running 0 start [] []) k)
    (hk : k ≤ m.stepLimit) (limit : Nat) :
    (searches m input rounds start).error ≠ some (.stepsExhausted limit) := by
  induction rounds generalizing m start with
  | zero => exact nofun
  | succ rounds ih =>
    have hlike := m.like_findAt input start
    have hconclusive := Matcher.findAt_conclusive h hk start
    rw [searches]
    split
    · generalize m.findAt input start = answer at hlike hconclusive ⊢
      obtain ⟨outcome, m'⟩ := answer
      match outcome with
      | .error e => exact fun he => hconclusive limit (congrArg Except.error (Option.some.inj he))
      | .ok none => exact nofun
      | .ok (some a) => exact ih (hlike.program ▸ h) (hlike.stepLimit ▸ hk)
    · exact nofun

end Cli.Scan

open Cli (Scan)

/-- **A scan lists the leftmost matches that do not overlap.**  Scan any input for a pattern that
compiles, with any buffers.

For each length of the input there is a number of steps with which the scan does not run out of
them; and after a search for each offset it is over, so that further ones would make no difference.

If it meets no error, it finds at most one match for each offset, the end of the input included.
Each of them is what `matchAt` finds at its start; it starts further right than the ones before it,
and not before they end; and wherever `matchAt` finds a match, one of them starts, or it is strictly
inside one of them. -/
theorem Compiler.scan_leftmost {c : Compiler} {pattern buffer : List UInt8} {r : Regex}
    (h : c.compile pattern buffer = .ok r) :
    (∃ bound : Nat → Nat, ∀ m : Matcher, m.program = .ofCode r.code → ∀ input : Array UInt8,
      bound input.size ≤ m.stepLimit →
        ∀ limit, (Scan.ofInput m input false).error ≠ some (.stepsExhausted limit)) ∧
    ∀ m : Matcher, m.program = .ofCode r.code → 2 ≤ m.stepLimit → ∀ input : Array UInt8,
      (∀ rounds, input.size + 1 ≤ rounds →
        Scan.searches m input rounds 0 = Scan.ofInput m input false) ∧
      ((Scan.ofInput m input false).error = none →
        (Scan.ofInput m input false).found.length ≤ input.size + 1 ∧
        (∀ a ∈ (Scan.ofInput m input false).found, (m.matchAt input a.start).1 = .ok (some a)) ∧
        (Scan.ofInput m input false).found.Pairwise
          (fun a b => a.start < b.start ∧ a.stop ≤ b.start) ∧
        ∀ offset a, (m.matchAt input offset).1 = .ok (some a) →
          ∃ b ∈ (Scan.ofInput m input false).found,
            b.start = offset ∨ b.start < offset ∧ offset < b.stop) := by
  obtain ⟨e, n, -, hwf, hcode, -, -⟩ := c.compile_derives h
  have hsound : (Program.ofCode r.code).Sound := (admissible_of_compile h).sound r.code_le
  constructor
  · have hbound (n : Nat) := exists_stepBound (p := .ofCode r.code) (fun input start hstart =>
      (Expr.enumerates_of_code hwf hcode r.code_le hstart (Nat.le_refl e.peak)).endsWithin) n
    choose bound hbound using hbound
    refine ⟨bound, fun m hm input hlimit limit => ?_⟩
    refine Scan.searches_conclusive (fun start hstart => ?_) hlimit limit
    rw [hm]
    exact hbound input.size input start rfl hstart
  · intro m hm hlimit input
    rw [← hm] at hsound
    have hrounds : input.size + 1 ≤ 0 + (input.size + 1) := Nat.le_of_eq (Nat.zero_add _).symm
    refine ⟨fun rounds hle => Scan.searches_eq_of_le hsound hrounds hle, fun herror => ?_⟩
    have hlists := Scan.lists_searches hsound hlimit hrounds herror
    exact ⟨hlists.length_le, hlists.matched, hlists.apart,
      fun offset a => hlists.covered offset a (Nat.zero_le offset)⟩

/-- In `baa` the scan for `a*` finds an empty match at 0, then both bytes, then an empty match at
the end; the match at 2 is inside the second of them. -/
theorem Compiler.scan_leftmost_aStar :
    let m := Matcher.ofRegex .aStar 1 0
    let input : Array UInt8 := #[0x62, 0x61, 0x61]
    ({} : Compiler).compile [0x61, 0x2a] (List.replicate 19 0) = .ok .aStar ∧
      2 ≤ m.stepLimit ∧ (Scan.ofInput m input false).error = none ∧
      (Scan.ofInput m input false).found = [⟨0, 0, []⟩, ⟨1, 3, []⟩, ⟨3, 3, []⟩] ∧
      (m.matchAt input 2).1 = .ok (some ⟨2, 3, []⟩) ∧
      Scan.searches m input 100 0 = Scan.ofInput m input false ∧
      ∃ b ∈ (Scan.ofInput m input false).found, b.start = 2 ∨ b.start < 2 ∧ 2 < b.stop := by
  intro m input
  have hlimit : 2 ≤ m.stepLimit := by decide
  have herror : (Scan.ofInput m input false).error = none := by decide +kernel
  have hmatch : (m.matchAt input 2).1 = .ok (some ⟨2, 3, []⟩) := by decide +kernel
  obtain ⟨hends, hlists⟩ := (Compiler.scan_leftmost compile_aStar).2 m rfl hlimit input
  refine ⟨compile_aStar, hlimit, herror, by decide +kernel, hmatch,
    hends 100 (by decide), ?_⟩
  exact (hlists herror).2.2.2 2 _ hmatch

end BoundedRegex
