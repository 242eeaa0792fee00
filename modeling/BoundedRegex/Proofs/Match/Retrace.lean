import BoundedRegex.Proofs.Match.Makes

/-!
# Iterations that are made again

What the machine does in an iteration of a loop that commits its iterations does not depend on what
the entry of the loop holds.  So an iteration that has been completed once is completed at the same
point whenever it is made again from where it began.

* `Config.Completes`: from a configuration on top of the entry, an iteration is completed at a
  point, with room for all that is on the way.
* `LoopEntry.Retraces`: the iterations that an entry counts have been completed in this way, one
  after the other, and where it is iterating again, it is on the way of the next of them.
* `Config.Makes.retraces`, `LoopEntry.Retraces.pass`: that is so after each step.
-/

namespace BoundedRegex

/-- Where the iterations of a loop are made: the loop and its address, the entries below its own,
and the room for spans and for entries. -/
structure LoopSite where
  ip : Nat
  loop : Loop
  below : List Entry
  slots : Nat
  room : Nat

variable {p : Program} {input : Array UInt8} {site : LoopSite} {c d : Config} {t u : Point}
  {lo : Nat} {l : Loop} {f g : LoopEntry} {below : List Entry}

/-- There is room for a configuration on top of the entry of the loop. -/
def LoopSite.Fits (site : LoopSite) (c : Config) : Prop :=
  c.log.length ≤ site.slots ∧ c.stack.length + site.below.length < site.room

/-- A loop is in an iteration. -/
def LoopEntry.Iterates (f : LoopEntry) : Prop :=
  f.phase = .iterating ∨ ∃ target, f.phase = .replaying target

theorem LoopEntry.not_iterates (hphase : f.phase = .exited ∨ f.phase = .stalled) :
    ¬f.Iterates := by
  rcases hphase with hphase | hphase <;> simp [Iterates, hphase]

namespace Config

/-- Where an iteration begins, on top of the entry of the loop. -/
def begins (ip : Nat) (t : Point) : Config :=
  .running (Loop.body ip) t.pos t.log []

/-- A step that is the same whatever the entry of the loop holds. -/
def Passes (p : Program) (input : Array UInt8) (site : LoopSite) (c d : Config) : Prop :=
  ∀ g : LoopEntry, g.ip = site.ip →
    (c.on (.loop g :: site.below)).step p input = .going (d.on (.loop g :: site.below))

/-- The iteration in progress is completed at a point. -/
inductive Completes (p : Program) (input : Array UInt8) (site : LoopSite) (t : Point) :
    Config → Prop
  | ended {c : Config} (h : c.Ends p site.ip t) : Completes p input site t c
  | step {c d : Config} (h : c.Passes p input site d) (hfits : site.Fits d)
      (hd : Completes p input site t d) : Completes p input site t c

/-! ### Steps at the end of an iteration, or at the entry itself -/

/-- At the end of an iteration the machine commits it. -/
theorem Ends.step_on (h : c.Ends p lo t) (hl : p.Commits lo l) (hip : g.ip = lo)
    (input : Array UInt8) (below : List Entry) :
    (c.on (.loop g :: below)).step p input = commitIteration input t.pos t.log below l g := by
  obtain ⟨n, hf⟩ := hl.fetch
  cases h with
  | intro hend htarget hnone =>
    have hdrop {stack : List Entry} (hnone : ∀ e ∈ stack, e.isOfLoop lo = false) :
        (stack ++ .loop g :: below).dropWhile (fun e => !e.isOfLoop lo) = .loop g :: below := by
      rw [List.dropWhile_append_of_pos (by simpa using hnone),
        List.dropWhile_cons_of_neg (by simp [Entry.isOfLoop, hip])]
    rw [on, step, execute, hend]
    dsimp only
    rw [htarget, endIteration, hdrop hnone, hf]
    simp [hl.commits]

theorem Ends.point_eq (h : c.Ends p lo t) (h' : c.Ends p lo u) : t = u := by
  cases h
  cases h'
  rfl

/-- Where only the entry of the loop is left, the machine takes it back. -/
theorem step_failing_on (hl : p.Commits f.ip l) (hcounter : f.phase ≠ .counter)
    (hboundary : f.phase ≠ .boundary) (input : Array UInt8) (below : List Entry) :
    (failing (.loop f :: below)).step p input = retryLoop input below l f := by
  obtain ⟨n, hf⟩ := hl.fetch
  simp [step, backtrack, hf, hcounter, hboundary, hl.several]

/-- What is on top of an entry and those below it is longer than those below. -/
theorem stack_on_ne {e : Entry} (c : Config) : (c.on (e :: below)).stack ≠ below := by
  intro h
  have hlength := congrArg List.length h
  simp at hlength
  omega

/-- An entry that is put back on top of the same ones is the one that was there. -/
theorem eq_of_stack_on {e e' : Entry} (h : (c.on (e :: below)).stack = e' :: below) : e = e' := by
  have hlength := congrArg List.length h
  simp only [stack_on, List.length_append, List.length_cons] at hlength
  have hnil : c.stack = [] := List.eq_nil_of_length_eq_zero (by omega)
  rw [stack_on, hnil] at h
  exact (List.cons.inj h).1

/-- A configuration in which only an entry is on top of those below it. -/
theorem eq_of_running_on {ip pos : Nat} {log : List Capture}
    (h : running ip pos log (.loop f :: below) = d.on (.loop g :: below)) :
    d = running ip pos log [] ∧ g = f := by
  have hentry := Entry.loop.inj (eq_of_stack_on (congrArg Config.stack h).symm)
  subst hentry
  have hon : (running ip pos log []).on (.loop g :: below) = d.on (.loop g :: below) := h
  exact ⟨(on_inj hon).symm, rfl⟩

/-- What becomes of the entry of a loop when an iteration is committed: another one begins, or the
loop is left. -/
theorem commit_cases (hip : f.ip = lo) (h : commitIteration input t.pos t.log below l f =
      .going (d.on (.loop g :: below))) :
    ∃ phase, g = { f with phase, count := f.count + 1, pos := t.pos, log := t.log } ∧
      ((phase = f.phase ∧ d = .begins lo t ∧
        ∀ target, f.phase = .replaying target → f.count + 1 < target) ∨
      phase = .exited ∨ phase = .stalled) := by
  unfold commitIteration at h
  extract_lets progressed count again phase at h
  obtain ⟨rfl, rfl⟩ := eq_of_running_on (Next.going.inj h)
  refine ⟨phase, rfl, ?_⟩
  by_cases hagain : again = true
  · refine Or.inl ⟨if_pos hagain, ?_, fun target hphase => ?_⟩
    · rw [if_pos hagain, hip, begins]
    · simpa [again, hphase, count] using hagain
  · refine Or.inr ?_
    simp only [phase, if_neg hagain]
    split <;> simp

/-- What becomes of the entry of a loop when it is taken back and stays: the loop is left with the
iterations finished so far, with none of them, iterates again, or iterates once more. -/
theorem retry_cases (hip : f.ip = lo)
    (h : retryLoop input below l f = .going (d.on (.loop g :: below))) :
    (f.phase = .iterating ∧ g = { f with phase := .exited }) ∨
    f.phase = .exited ∧
      (g = { f with count := 0, pos := f.start, log := f.startLog } ∨
      (g = { f with
          phase := .replaying (f.count - 1), count := 0, pos := f.start, log := f.startLog } ∧
        0 < f.count - 1 ∧ d = .begins lo ⟨f.start, f.startLog⟩) ∨
      (g = { f with phase := .iterating } ∧ d = .begins lo ⟨f.pos, f.log⟩)) := by
  have hdrop {P : Prop} (heq : Next.fail below = .going (d.on (.loop g :: below))) : P :=
    absurd (congrArg Config.stack (Next.going.inj heq)).symm (stack_on_ne d)
  unfold retryLoop at h
  extract_lets body after resume target fresh at h
  have hbody : body = Loop.body lo := congrArg Loop.body hip
  cases hphase : f.phase with
  | iterating =>
    rw [hphase] at h
    dsimp only at h
    split at h
    · obtain ⟨-, rfl⟩ := eq_of_running_on (Next.going.inj h)
      exact Or.inl ⟨rfl, rfl⟩
    · exact hdrop h
  | exited =>
    refine Or.inr ⟨rfl, ?_⟩
    rw [hphase] at h
    dsimp only at h
    split at h
    · split at h
      · split at h
        · obtain ⟨-, rfl⟩ := eq_of_running_on (Next.going.inj h)
          exact Or.inl (by rw [← hphase])
        · next hne =>
          obtain ⟨rfl, rfl⟩ := eq_of_running_on (Next.going.inj h)
          rw [hbody]
          exact Or.inr (Or.inl ⟨rfl, Nat.pos_of_ne_zero hne, rfl⟩)
      · exact hdrop h
    · split at h
      · obtain ⟨rfl, rfl⟩ := eq_of_running_on (Next.going.inj h)
        rw [hbody]
        exact Or.inr (Or.inr ⟨rfl, rfl⟩)
      · exact hdrop h
  | replaying | stalled | boundary | counter =>
    rw [hphase] at h
    exact hdrop h

/-- A step at the end of an iteration changes the entry of the loop. -/
theorem commitIteration_ne (h : commitIteration input t.pos t.log below l g =
    .going (d.on (.loop g :: below))) : False := by
  obtain ⟨phase, hg, -⟩ := commit_cases rfl h
  exact Nat.ne_of_lt (Nat.lt_succ_self g.count) (congrArg LoopEntry.count hg)

/-- When the entry of a loop that iterates is taken back, it changes. -/
theorem retryLoop_ne (hf : f.Iterates)
    (h : retryLoop input below l f = .going (d.on (.loop f :: below))) : False := by
  rcases retry_cases rfl h with ⟨-, hexited⟩ | ⟨hexited, -⟩
  · exact LoopEntry.not_iterates (Or.inl (congrArg LoopEntry.phase hexited)) hf
  · exact LoopEntry.not_iterates (Or.inl hexited) hf

/-- Only the instruction that accepts accepts. -/
theorem fetch_of_accepted {pos : Nat} {log : List Capture} {stack : List Entry}
    (h : c.step p input = .accepted pos log stack) :
    ∃ ip size, c = .running ip pos log stack ∧ p.fetch? ip = some (.accept, size) := by
  have hloop (ip pos' : Nat) (log' : List Capture) (stack' : List Entry) (l : Loop) :
      enterLoop p input ip pos' log' stack' l ≠ .accepted pos log stack := by
    unfold enterLoop runByteLoop
    grind
  have hend (pos' : Nat) (log' : List Capture) (stack' : List Entry) (ip : Nat) :
      endIteration p input pos' log' stack' ip ≠ .accepted pos log stack := by
    unfold endIteration keepIteration commitIteration
    grind
  have hback (stack' : List Entry) : backtrack p input stack' ≠ .accepted pos log stack := by
    unfold backtrack retryBoundary retryByteLoop retryLoop
    grind
  cases c with
  | failing stack' => exact absurd h (hback stack')
  | running ip pos' log' stack' =>
    unfold step execute closeCapture at h
    grind

/-! ### Steps inside an iteration -/

/-- An entry of a loop at an address. -/
theorem exists_entry (lo : Nat) (phase : LoopPhase) :
    ∃ g : LoopEntry, g.ip = lo ∧ g.phase = phase :=
  ⟨⟨lo, phase, 0, [], 0, [], 0⟩, rfl, rfl⟩

namespace Passes

theorem eq {d' : Config} (h : c.Passes p input site d) (h' : c.Passes p input site d') :
    d = d' := by
  obtain ⟨g, hip, -⟩ := exists_entry site.ip .exited
  exact on_inj (Next.going.inj ((h g hip).symm.trans (h' g hip)))

theorem not_ends (h : c.Passes p input site d) (hl : p.Commits site.ip l) :
    ¬c.Ends p site.ip t := by
  intro hends
  obtain ⟨g, hip, -⟩ := exists_entry site.ip .exited
  exact commitIteration_ne ((hends.step_on hl hip input site.below).symm.trans (h g hip))

end Passes

/-- **Inside an iteration, a step that keeps the entry of the loop is the same whatever the entry
holds**, and leads to places inside the loop. -/
theorem Inside.passes (hc : c.Inside p lo l) (hp : p.Sound) (he : p.Enclosed)
    (hl : p.Commits lo l) (hip : g.ip = lo) (hg : g.Iterates)
    (hstep : (c.on (.loop g :: below)).step p input = .going (d.on (.loop g :: below)))
    (slots room : Nat) :
    c.Passes p input ⟨lo, l, below, slots, room⟩ d ∧ d.Inside p lo l := by
  have hends (t : Point) : ¬c.Ends p lo t := fun h =>
    commitIteration_ne ((h.step_on hl hip input below).symm.trans hstep)
  have hne : c ≠ .failing [] := by
    rintro rfl
    have hnot {phase : LoopPhase} (hiterating : phase ≠ .iterating)
        (hreplaying : ∀ target, phase ≠ .replaying target) : g.phase ≠ phase := by
      rintro rfl
      exact hg.elim hiterating fun ⟨target, htarget⟩ => hreplaying target htarget
    have htake : (failing (.loop g :: below)).step p input = retryLoop input below l g :=
      step_failing_on (hip ▸ hl) (hnot nofun nofun) (hnot nofun nofun) input below
    exact retryLoop_ne hg (htake.symm.trans hstep)
  rcases hc.step hp he hl.several hends hne below with ⟨r, hr, hall⟩ | ⟨r, hr, hall⟩
  · have heq : r = .going d := Next.eq_going_of_on ((hall g hip).symm.trans hstep)
    subst heq
    exact ⟨hall, hr⟩
  · have hlength := hr _ ((hall g hip).symm.trans hstep)
    simp at hlength
    omega

namespace Completes

theorem of_passes (h : c.Completes p input site t) (hl : p.Commits site.ip l)
    (hpass : c.Passes p input site d) : d.Completes p input site t := by
  cases h with
  | ended hends => exact absurd hends (hpass.not_ends hl)
  | step hpass' _ hd => exact hpass.eq hpass' ▸ hd

theorem point_eq (h : c.Completes p input site t) (hl : p.Commits site.ip l)
    (hends : c.Ends p site.ip u) : t = u := by
  cases h with
  | ended hends' => exact hends'.point_eq hends
  | step hpass _ _ => exact absurd hends (hpass.not_ends hl)

/-- No iteration is completed that has failed. -/
theorem ne_failing (h : c.Completes p input site t) : c ≠ .failing [] := by
  rintro rfl
  cases h with
  | ended hends => cases hends
  | @step _ d hpass _ _ =>
    obtain ⟨g, hip, hcounter⟩ := exists_entry site.ip .counter
    have hstep : (failing (.loop g :: site.below)).step p input = .fail site.below := by
      rw [Config.step, backtrack, if_pos hcounter]
    have hgoing := Next.going.inj (hstep.symm.trans (hpass g hip))
    exact stack_on_ne d (congrArg Config.stack hgoing).symm

end Completes

end Config

/-- An iteration begins inside the loop. -/
theorem Program.Commits.begins (hl : p.Commits lo l) (hp : p.Sound) (he : p.Enclosed)
    (hstarts : p.Starts lo) (t : Point) : (Config.begins lo t).Inside p lo l := by
  obtain ⟨size, hf⟩ := hl.fetch
  exact ⟨⟨(hp.loop hstarts hf).1, he.begins hstarts hf hl.several⟩, nofun⟩

namespace LoopEntry

/-- The iterations that have been made and that are not given up. -/
def iterations (f : LoopEntry) : Nat :=
  match f.phase with
  | .replaying target => target
  | _ => f.count

theorem iterations_eq (h : ∀ target, f.phase ≠ .replaying target) : f.iterations = f.count := by
  unfold iterations
  split
  · next target hphase => exact absurd hphase (h target)
  · rfl

theorem iterations_eq_target {target : Nat} (h : f.phase = .replaying target) :
    f.iterations = target := by
  rw [iterations, h]

/-- The entry when an iteration was made for the first time, after `k` others. -/
def atIteration (f : LoopEntry) (k : Nat) (t : Point) : LoopEntry :=
  { f with phase := .iterating, pos := t.pos, log := t.log, count := k }

/-- So many iterations have been made, each from one of these points to the next, and come to the
same whenever they are made again. -/
def Made (p : Program) (input : Array UInt8) (site : LoopSite) (seen : LoopEntry → Prop)
    (f : LoopEntry) (points : Nat → Point) (n : Nat) : Prop :=
  ∀ k < n, seen (f.atIteration k (points k)) ∧
    (Config.begins site.ip (points k)).Completes p input site (points (k + 1))

namespace Made

variable {seen : LoopEntry → Prop} {points : Nat → Point} {m n : Nat}

theorem zero : f.Made p input site seen points 0 :=
  fun k hk => absurd hk (Nat.not_lt_zero k)

theorem mono (h : f.Made p input site seen points n) (hmn : m ≤ n) :
    f.Made p input site seen points m :=
  fun k hk => h k (Nat.lt_of_lt_of_le hk hmn)

/-- With one iteration more. -/
theorem succ (h : f.Made p input site seen points n) (hseen : seen (f.atIteration n (points n)))
    (hc : (Config.begins site.ip (points n)).Completes p input site t) :
    ∃ points' : Nat → Point, points' 0 = points 0 ∧ points' (n + 1) = t ∧
      f.Made p input site seen points' (n + 1) := by
  have hnow : Function.update points (n + 1) t (n + 1) = t := Function.update_self ..
  have hold {k : Nat} (hk : k ≤ n) : Function.update points (n + 1) t k = points k :=
    Function.update_of_ne (Nat.ne_of_lt (Nat.lt_succ_of_le hk)) ..
  refine ⟨Function.update points (n + 1) t, hold (Nat.zero_le n), hnow, ?_⟩
  intro k hk
  rcases Nat.lt_succ_iff_lt_or_eq.1 hk with hlt | rfl
  · rw [hold (Nat.le_of_lt hlt), hold hlt]
    exact h k hlt
  · rw [hold (Nat.le_refl _), hnow]
    exact ⟨hseen, hc⟩

end Made

/-- The entry `f` of a loop, with a configuration on top of it, and where the iterations began that
it counts.  The entries with which they began for the first time have been `seen`. -/
structure Retraces (p : Program) (input : Array UInt8) (site : LoopSite)
    (seen : LoopEntry → Prop) (f : LoopEntry) (points : Nat → Point) (c : Config) : Prop where
  start : points 0 = ⟨f.start, f.startLog⟩
  now : points f.count = ⟨f.pos, f.log⟩
  made : f.Made p input site seen points f.iterations
  inside : f.Iterates → c.Inside p site.ip site.loop
  /-- What the iteration in progress comes to, it comes to from where it began. -/
  iterating : f.phase = .iterating → seen f ∧ ∀ t, c.Completes p input site t →
    (Config.begins site.ip (points f.count)).Completes p input site t
  /-- An iteration that is made again is on the way to where it was completed. -/
  replaying : ∀ target, f.phase = .replaying target →
    c.Completes p input site (points (f.count + 1))

namespace Retraces

variable {seen seen' : LoopEntry → Prop} {points : Nat → Point}

theorem mono (h : f.Retraces p input site seen points c) (hseen : ∀ e, seen e → seen' e) :
    f.Retraces p input site seen' points c := {
  h with
  made := fun k hk => (h.made k hk).imp_left (hseen _)
  iterating := fun hphase => (h.iterating hphase).imp_left (hseen f) }

/-- What is done on top of the entry of a loop that is left does not matter. -/
theorem left (h : f.Retraces p input site seen points c) (hf : ¬f.Iterates) (d : Config) :
    f.Retraces p input site seen points d := {
  h with
  inside := fun hiterates => absurd hiterates hf
  iterating := fun hphase => absurd (Or.inl hphase) hf
  replaying := fun target hphase => absurd (Or.inr ⟨target, hphase⟩) hf }

/-- A step on top of the entry of a loop that iterates. -/
theorem pass (h : f.Retraces p input site seen points c) (hl : p.Commits site.ip site.loop)
    (hpass : c.Passes p input site d) (hfits : site.Fits d)
    (hinside : d.Inside p site.ip site.loop) : f.Retraces p input site seen points d := {
  h with
  inside := fun _ => hinside
  iterating := fun hphase => by
    obtain ⟨hseen, hfrom⟩ := h.iterating hphase
    exact ⟨hseen, fun t hd => hfrom t (.step hpass hfits hd)⟩
  replaying := fun target hphase => (h.replaying target hphase).of_passes hl hpass }

/-- The entry of a loop that has been left after so many iterations. -/
theorem of_left (hf : ¬f.Iterates) (hstart : points 0 = ⟨f.start, f.startLog⟩)
    (hnow : points f.count = ⟨f.pos, f.log⟩) (hmade : f.Made p input site seen points f.count) :
    f.Retraces p input site seen points c where
  start := hstart
  now := hnow
  made := by rwa [iterations_eq fun target hphase => hf (Or.inr ⟨target, hphase⟩)]
  inside := fun hiterates => absurd hiterates hf
  iterating := fun hphase => absurd (Or.inl hphase) hf
  replaying := fun target hphase => absurd (Or.inr ⟨target, hphase⟩) hf

section

variable (hbegins : ∀ t, (Config.begins site.ip t).Inside p site.ip site.loop)
include hbegins

/-- The entry of a loop of which an iteration begins. -/
theorem iterates (hphase : f.phase = .iterating) (hstart : points 0 = ⟨f.start, f.startLog⟩)
    (hnow : points f.count = ⟨f.pos, f.log⟩) (hmade : f.Made p input site seen points f.count)
    (hseen : seen f) :
    f.Retraces p input site seen points (.begins site.ip ⟨f.pos, f.log⟩) where
  start := hstart
  now := hnow
  made := by rwa [iterations_eq (by simp [hphase])]
  inside := fun _ => hbegins _
  iterating := fun _ => ⟨hseen, fun t ht => hnow ▸ ht⟩
  replaying := by simp [hphase]

/-- The entry of a loop of which an iteration begins that has been made before. -/
theorem replays {target : Nat} (hphase : f.phase = .replaying target) (hlt : f.count < target)
    (hstart : points 0 = ⟨f.start, f.startLog⟩) (hnow : points f.count = ⟨f.pos, f.log⟩)
    (hmade : f.Made p input site seen points target) :
    f.Retraces p input site seen points (.begins site.ip ⟨f.pos, f.log⟩) where
  start := hstart
  now := hnow
  made := by rwa [iterations_eq_target hphase]
  inside := fun _ => hbegins _
  iterating := by simp [hphase]
  replaying := fun _ _ => hnow ▸ (hmade f.count hlt).2

variable (h : f.Retraces p input site seen points c) (hip : f.ip = site.ip)
include h hip

/-- An iteration has been completed for the first time. -/
theorem commit_iterating (hphase : f.phase = .iterating) (hends : c.Ends p site.ip t)
    (hd : Config.commitIteration input t.pos t.log site.below site.loop f =
      .going (d.on (.loop g :: site.below)))
    (hseen : g.phase = .iterating → d = .begins site.ip ⟨g.pos, g.log⟩ → seen g) :
    ∃ points', g.Retraces p input site seen points' d := by
  obtain ⟨hfirst, hfrom⟩ := h.iterating hphase
  have hmade := h.made
  rw [iterations_eq (by simp [hphase])] at hmade
  have hentry : f.atIteration f.count (points f.count) = f := by
    rw [h.now, atIteration, ← hphase]
  obtain ⟨points', hzero, hnow, hmade⟩ := hmade.succ (hentry ▸ hfirst) (hfrom t (.ended hends))
  have hstart := hzero.trans h.start
  refine ⟨points', ?_⟩
  obtain ⟨phase, rfl, ⟨hsame, rfl, -⟩ | hleave⟩ := Config.commit_cases hip hd
  · have hiterating := hsame.trans hphase
    exact iterates hbegins hiterating hstart hnow hmade (hseen hiterating rfl)
  · exact of_left (not_iterates hleave) hstart hnow hmade

/-- An iteration has been completed that was made before. -/
theorem commit_replaying (hl : p.Commits site.ip site.loop) {target : Nat}
    (hphase : f.phase = .replaying target) (hlt : f.count < target) (hends : c.Ends p site.ip t)
    (hd : Config.commitIteration input t.pos t.log site.below site.loop f =
      .going (d.on (.loop g :: site.below))) : g.Retraces p input site seen points d := by
  obtain rfl : points (f.count + 1) = t := (h.replaying target hphase).point_eq hl hends
  have hmade := h.made
  rw [iterations_eq_target hphase] at hmade
  obtain ⟨phase, rfl, ⟨hsame, rfl, hmore⟩ | hleave⟩ := Config.commit_cases hip hd
  · exact replays hbegins (hsame.trans hphase) (hmore target hphase) h.start rfl hmade
  · exact of_left (not_iterates hleave) h.start rfl (hmade.mono hlt)

/-- The entry is taken back. -/
theorem retry (hd : Config.retryLoop input site.below site.loop f =
      .going (d.on (.loop g :: site.below)))
    (hseen : g.phase = .iterating → d = .begins site.ip ⟨g.pos, g.log⟩ → seen g) :
    g.Retraces p input site seen points d := by
  have hmade := h.made
  rcases Config.retry_cases hip hd with ⟨hphase, rfl⟩ | ⟨hphase, hcases⟩
  · rw [iterations_eq (by simp [hphase])] at hmade
    exact of_left (not_iterates (Or.inl rfl)) h.start h.now hmade
  · rw [iterations_eq (by simp [hphase])] at hmade
    rcases hcases with rfl | ⟨rfl, hpos, rfl⟩ | ⟨rfl, rfl⟩
    · exact of_left (not_iterates (Or.inl hphase)) h.start h.start .zero
    · exact replays hbegins rfl hpos h.start h.start (hmade.mono (Nat.sub_le _ _))
    · exact iterates hbegins rfl h.start h.now hmade (hseen rfl rfl)

end

end Retraces

end LoopEntry

/-- **What a step makes of the entry of a loop retraces its iterations**, if the entry did so
before, in case there was one. -/
theorem Config.Makes.retraces {seen : LoopEntry → Prop}
    (hmakes : c.Makes p input site.ip site.loop site.below (d.on (.loop g :: site.below)))
    (hl : p.Commits site.ip site.loop)
    (hbegins : ∀ t, (Config.begins site.ip t).Inside p site.ip site.loop)
    (hbefore : ∀ (c₀ : Config) (f : LoopEntry), c = c₀.on (.loop f :: site.below) →
      f.ip = site.ip → ∃ points, f.Retraces p input site seen points c₀)
    (hseen : g.phase = .iterating → d = .begins site.ip ⟨g.pos, g.log⟩ → seen g) :
    ∃ points, g.Retraces p input site seen points d := by
  generalize hnext : d.on (.loop g :: site.below) = next at hmakes
  cases hmakes with
  | @entered d' pos log hd =>
    subst hnext
    refine ⟨fun _ => ⟨pos, log⟩, ?_⟩
    unfold Config.enterLoop at hd
    extract_lets body after phase at hd
    rw [hl.commits, if_neg Bool.false_ne_true, hl.several, Bool.not_false, if_pos rfl] at hd
    split at hd
    · obtain ⟨rfl, rfl⟩ := Config.eq_of_running_on (Next.going.inj hd)
      exact .of_left (LoopEntry.not_iterates (Or.inl rfl)) rfl rfl .zero
    · obtain ⟨rfl, rfl⟩ := Config.eq_of_running_on (Next.going.inj hd)
      exact .iterates hbegins rfl rfl rfl .zero (hseen rfl rfl)
  | @committed c₀ d' t f hip hends hunderway hd =>
    subst hnext
    obtain ⟨points, hf⟩ := hbefore c₀ f rfl hip
    rcases hunderway with ⟨hphase, -⟩ | ⟨target, hphase, hlt, -⟩
    · exact hf.commit_iterating hbegins hip hphase hends hd hseen
    · exact ⟨points, hf.commit_replaying hbegins hip hl hphase hlt hends hd⟩
  | @retried d' f hip hd =>
    subst hnext
    obtain ⟨points, hf⟩ := hbefore (.failing []) f rfl hip
    exact ⟨points, hf.retry hbegins hip hd hseen⟩

end BoundedRegex
