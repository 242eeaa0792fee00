import BoundedRegex.Proofs.CaptureSlots
import BoundedRegex.Proofs.FixedCaptures
import BoundedRegex.Proofs.Match.Halting
import BoundedRegex.Proofs.Match.Lockstep
import BoundedRegex.Proofs.Match.Retrace

/-!
# Replaying a loop

When a greedy loop that commits its iterations gives one of them back, it iterates again from its
start, without the offsets of the iterations.  It can do so because an iteration depends on nothing
but where it begins: the choices inside it come to the same each time.

* `Machine.Keeps`: a frame stays alive from one state of an attempt to another.
* `MachineState.Retraces`: what the loops in a state have iterated they can iterate again, which
  each step keeps.
* `MachineState.OnTop.replay`: so a loop that iterates again completes the next iteration.
* `Compiler.replay_repeats`: in the code of a pattern, a replay never fails, never runs out of
  room, and is after each iteration where the loop was before.
-/

namespace BoundedRegex

/-! ### Keeping a frame -/

/-- The states through which an attempt may pass from one on, as long as it keeps the frame at an
index alive. -/
inductive Machine.Keeps (p : Program) (input : Array UInt8) (top : Nat) (s : MachineState) :
    MachineState → Prop where
  | refl (htop : top < s.sp) : Keeps p input top s s
  | step {t u : MachineState} (h : Keeps p input top s t)
      (hs : Machine.step p input t = .running u) (htop : top < u.sp) : Keeps p input top s u
  | resume {t u : MachineState} (h : Keeps p input top s t)
      (hs : Machine.step p input t = .accepted u) (htop : top < u.sp) :
      Keeps p input top s { u with mode := .backtracking }

variable {p : Program} {input : Array UInt8} {s₀ s t u : MachineState} {top : Nat}
  {below : List Entry} {f g : LoopEntry} {l : Loop}

theorem Machine.Keeps.trans (h : Machine.Keeps p input top s t)
    (h' : Machine.Keeps p input top t u) : Machine.Keeps p input top s u := by
  induction h' with
  | refl => exact h
  | step _ hs htop ih => exact ih.step hs htop
  | resume _ hs htop ih => exact ih.resume hs htop

/-- An attempt has kept the frame of a loop since an iteration began, which it did with this
entry. -/
def Machine.Began (p : Program) (input : Array UInt8) (s₀ : MachineState) (below : List Entry)
    (s : MachineState) (e : LoopEntry) : Prop :=
  ∃ w, Machine.Reaches p input s₀ w ∧ Machine.Keeps p input below.length w s ∧
    w.config = (Config.begins e.ip ⟨e.pos, e.log⟩).on (.loop e :: below)

/-! ### States of an attempt -/

/-- An attempt may pass through a state in which the loops that commit their iterations can iterate
again what they have iterated. -/
structure MachineState.Retraces (p : Program) (input : Array UInt8) (s s₀ : MachineState) :
    Prop where
  reaches : Machine.Reaches p input s₀ s
  regular : s.Regular p s₀.captures.size
  room : s.frames.size = s₀.frames.size
  entries {c : Config} {f : LoopEntry} {below : List Entry} {l : Loop}
    (hc : s.config = c.on (.loop f :: below)) (hl : p.Commits f.ip l) :
    ∃ points, f.Retraces p input ⟨f.ip, l, below, s₀.captures.size, s₀.frames.size⟩
      (Machine.Began p input s₀ below s) points c

/-- An entry that has others on top of it is regular. -/
theorem Config.Regular.of_on {c : Config} {e : Entry} (h : (c.on (e :: below)).Regular p) :
    e.Regular p below := by
  cases c with
  | running ip pos log stack => exact (h.2.of_suffix (List.suffix_append stack _)).1
  | failing stack => exact (StackRegular.of_suffix h (List.suffix_append stack _)).1

namespace MachineState

theorem lt_sp_of_on {c : Config} (hc : s.config = c.on (.loop f :: below)) :
    below.length < s.sp := by
  rw [← length_stack_config, hc, Config.stack_on, List.length_append, List.length_cons]
  omega

/-- There is room for what is on top of the frame of a loop. -/
theorem Sane.fits (hs : s.Sane p) {c : Config} (hc : s.config = c.on (.loop f :: below)) (lo : Nat)
    (l : Loop) : LoopSite.Fits ⟨lo, l, below, s.captures.size, s.frames.size⟩ c := by
  have hlog := hs.length_log_le hc
  have hstack := hs.length_stack_le hc
  rw [Config.log_on] at hlog
  rw [Config.stack_on, List.length_append, List.length_cons] at hstack
  exact ⟨hlog, Nat.lt_of_succ_le hstack⟩

namespace Retraces

section

variable (hp : p.Sound) (hs : p.Structured) (he : p.Enclosed) (h : s.Retraces p input s₀)
include hp hs he h

/-- **Loops can iterate again what they have iterated, also after a step.** -/
theorem step (hstep : Machine.step p input s = .running u) : u.Retraces p input s₀ := by
  have hregular : (Machine.step p input s).Regular p s₀.captures.size :=
    h.regular.step hp hs input
  have href := refines_step h.regular.sane input
  rw [hstep] at hregular href
  generalize hnext : s.config.step p input = next at href
  cases href with
  | @running _ d hu hd hroom _ _ _ =>
    have hreaches := h.reaches.step hstep
    refine ⟨hreaches, hregular, hroom.trans h.room, ?_⟩
    subst hd
    intro d g below l hconfig hl
    rw [hconfig] at hnext
    have htop := lt_sp_of_on hconfig
    have hseen (e : LoopEntry) (hbegan : Machine.Began p input s₀ below s e) :
        Machine.Began p input s₀ below u e := by
      obtain ⟨w, hw, hkeeps, hbegins⟩ := hbegan
      exact ⟨w, hw, hkeeps.step hstep htop, hbegins⟩
    rcases Config.exists_on_or_makes hp h.regular.config hnext hl with ⟨c₀, hc₀⟩ | hmakes
    · -- The entry was there before.
      obtain ⟨points, hpoints⟩ := h.entries hc₀ hl
      refine ⟨points, ?_⟩
      by_cases hg : g.Iterates
      · rw [hc₀] at hnext
        obtain ⟨hpass, hinside⟩ := (hpoints.inside hg).passes hp he hl rfl hg hnext _ _
        have hfits := hu.fits hconfig g.ip l
        rw [hregular.size, hroom.trans h.room] at hfits
        exact (hpoints.mono hseen).pass hl hpass hfits hinside
      · exact (hpoints.mono hseen).left hg d
    · have hentry : (Entry.loop g).Regular p below := (hconfig ▸ hregular.config).of_on
      obtain ⟨_, _, -, hentry⟩ := hentry
      refine hmakes.retraces hl (hl.begins hp he hentry.resumes.starts) (fun c₀ f hc₀ hip => ?_)
        fun hphase hbegins => ?_
      · have hip : f.ip = g.ip := hip
        obtain ⟨points, hpoints⟩ := h.entries hc₀ (hip ▸ hl)
        rw [hip] at hpoints
        exact ⟨points, hpoints.mono hseen⟩
      · exact ⟨u, hreaches, .refl htop, by rw [hconfig, hbegins]⟩

/-- They can do so when the machine goes on after a match. -/
theorem resume (hstep : Machine.step p input s = .accepted u) :
    ({ u with mode := .backtracking } : MachineState).Retraces p input s₀ := by
  have hregular : (Machine.step p input s).Regular p s₀.captures.size :=
    h.regular.step hp hs input
  have href := refines_step h.regular.sane input
  rw [hstep] at hregular href
  generalize hnext : s.config.step p input = next at href
  cases href with
  | accepted =>
    obtain ⟨ip, size, hrunning, haccept⟩ := Config.fetch_of_accepted hnext
    refine ⟨h.reaches.resume hstep, hregular, h.room, ?_⟩
    intro d f below l hconfig hl
    have hstack : s.stack = d.stack ++ .loop f :: below := by
      rw [← Config.stack_on, ← hconfig]
      rfl
    have hbefore : s.config = (Config.running ip s.pos (spans s.captures s.log) d.stack).on
        (.loop f :: below) := by
      rw [hrunning, hstack]
      rfl
    have htop := lt_sp_of_on hbefore
    obtain ⟨points, hpoints⟩ := h.entries hbefore hl
    -- Nothing inside a loop accepts.
    have hleft : ¬f.Iterates := by
      intro hiterates
      have hinside := (hpoints.inside hiterates).1
      exact he.accepts hinside.starts hinside.inside hl.several haccept
    refine ⟨points, (hpoints.mono fun e hbegan => ?_).left hleft d⟩
    obtain ⟨w, hw, hkeeps, hbegins⟩ := hbegan
    exact ⟨w, hw, hkeeps.resume hstep htop, hbegins⟩

end

/-- They can do so in whatever state an attempt may be. -/
theorem of_reaches (hp : p.Sound) (hs : p.Structured) (he : p.Enclosed)
    (h : s₀.Retraces p input s₀) (hreaches : Machine.Reaches p input s₀ s) :
    s.Retraces p input s₀ := by
  induction hreaches with
  | refl => exact h
  | step _ hstep ih => exact ih.step hp hs he hstep
  | resume _ hstep ih => exact ih.resume hp hs he hstep

end Retraces

/-- At the start there are no entries. -/
theorem retraces_initial (hzero : p.Starts 0) (start : Nat) (frames : Array Frame)
    (captures : Array Capture) (peak : Nat) :
    (initial start frames captures peak).Retraces p input (initial start frames captures peak) where
  reaches := .refl
  regular := regular_initial hzero start frames captures peak
  room := rfl
  entries {c _ _ _} hc _ := by
    have hstack := congrArg Config.stack hc
    rw [config_initial, Config.stack_on] at hstack
    exact absurd hstack.symm (List.append_ne_nil_of_right_ne_nil _ (List.cons_ne_nil _ _))

end MachineState

/-! ### Iterating again -/

/-- The machine is in a configuration on top of the entry `g` of a loop. -/
structure MachineState.OnTop (p : Program) (site : LoopSite) (g : LoopEntry) (c : Config)
    (s : MachineState) : Prop where
  sane : s.Sane p
  slots : s.captures.size = site.slots
  room : s.frames.size = site.room
  config : s.config = c.on (.loop g :: site.below)

/-- The entry of a loop that makes `target` iterations again, when it has made `k` of them. -/
def LoopEntry.atReplay (f : LoopEntry) (target k : Nat) (t : Point) : LoopEntry :=
  { f with
    phase := if k < target then .replaying target else .exited
    count := k
    pos := t.pos
    log := t.log }

/-- Where the machine goes on then. -/
def Config.atReplay (ip : Nat) (l : Loop) (target k : Nat) (t : Point) : Config :=
  .running (if k < target then Loop.body ip else l.after ip) t.pos t.log []

namespace MachineState.OnTop

variable {site : LoopSite} {c d : Config} {t : Point} {target k : Nat}

/-- The machine makes a step for which there is room. -/
theorem step (h : s.OnTop p site g c) (hfits : site.Fits d)
    (hstep : (c.on (.loop g :: site.below)).step p input = .going (d.on (.loop f :: site.below))) :
    ∃ u, Machine.step p input s = .running u ∧ u.OnTop p site f d := by
  have href := refines_step h.sane input
  rw [h.config, hstep] at href
  obtain ⟨hlog, hstack⟩ := hfits
  generalize Machine.step p input s = result at href
  cases href with
  | @running u _ hu hc hroom hslots _ _ =>
    exact ⟨u, rfl, hu, hslots.trans h.slots, hroom.trans h.room, hc⟩
  | scratch hfull hlength =>
    rw [Config.stack_on, List.length_append, List.length_cons] at hlength
    have hroom := h.room
    omega
  | log hfull hlength =>
    rw [Config.log_on] at hlength
    have hslots := h.slots
    omega

/-- There is room for the entry of the loop with nothing on top of it. -/
theorem fits (h : s.OnTop p site g c) (ht : t.log.length ≤ site.slots) (ip : Nat) :
    site.Fits (.running ip t.pos t.log []) := by
  have hstack := (h.sane.fits h.config site.ip site.loop).2
  have hbelow : ([] : List Entry).length + site.below.length ≤ c.stack.length + site.below.length :=
    Nat.add_le_add_right (Nat.zero_le _) _
  exact ⟨ht, Nat.lt_of_le_of_lt hbelow (h.room ▸ hstack)⟩

/-- At the end of an iteration, the machine commits it. -/
theorem commit (h : s.OnTop p site g c) (hl : p.Commits site.ip site.loop) (hip : g.ip = site.ip)
    (hends : c.Ends p site.ip t) {ip : Nat}
    (hcommit : Config.commitIteration input t.pos t.log site.below site.loop g =
      .going ((Config.running ip t.pos t.log []).on (.loop f :: site.below))) :
    ∃ u, Machine.step p input s = .running u ∧ u.OnTop p site f (.running ip t.pos t.log []) := by
  refine h.step (h.fits ?_ ip) ((hends.step_on hl hip input site.below).trans hcommit)
  rw [← h.slots]
  cases hends
  exact (h.sane.fits h.config site.ip site.loop).1

/-- The machine completes an iteration that is to be completed. -/
theorem complete (h : s.OnTop p site g c) (hip : g.ip = site.ip)
    (hc : c.Completes p input site t) :
    ∃ u d, Machine.Keeps p input site.below.length s u ∧ u.OnTop p site g d ∧
      d.Ends p site.ip t := by
  induction hc generalizing s with
  | @ended c hends => exact ⟨s, c, .refl (lt_sp_of_on h.config), h, hends⟩
  | step hpass hfits _ ih =>
    obtain ⟨u, hstep, hu⟩ := h.step hfits (hpass g hip)
    obtain ⟨v, d, hkeeps, hv, hends⟩ := ih hu
    have hfirst : Machine.Keeps p input site.below.length s u :=
      .step (.refl (lt_sp_of_on h.config)) hstep (lt_sp_of_on hu.config)
    exact ⟨v, d, hfirst.trans hkeeps, hv, hends⟩

/-- **The machine makes an iteration again** that has been made before. -/
theorem replay (hl : p.Commits site.ip site.loop) (hgreedy : site.loop.greedy = true)
    (hip : f.ip = site.ip) (hk : k < target)
    (h : s.OnTop p site (f.atReplay target k t) (.atReplay site.ip site.loop target k t))
    {u : Point} (hc : (Config.begins site.ip t).Completes p input site u) :
    ∃ v, Machine.Keeps p input site.below.length s v ∧
      v.OnTop p site (f.atReplay target (k + 1) u)
        (.atReplay site.ip site.loop target (k + 1) u) := by
  rw [Config.atReplay, if_pos hk] at h
  obtain ⟨v, d, hkeeps, hv, hends⟩ := h.complete hip hc
  have hcommit : Config.commitIteration input u.pos u.log site.below site.loop
      (f.atReplay target k t) = .going ((Config.atReplay site.ip site.loop target (k + 1) u).on
        (.loop (f.atReplay target (k + 1) u) :: site.below)) := by
    simp [Config.commitIteration, LoopEntry.atReplay, Config.atReplay, Config.on, hk, hgreedy, hip]
  obtain ⟨w, hstep, hw⟩ := hv.commit hl hip hends hcommit
  exact ⟨w, hkeeps.step hstep (lt_sp_of_on hw.config), hw⟩

/-- The machine begins to iterate again. -/
theorem restart (hl : p.Commits site.ip site.loop) (hgreedy : site.loop.greedy = true)
    (hip : f.ip = site.ip) (hphase : f.phase = .exited) (hcount : site.loop.min.toNat < f.count)
    (h : s.OnTop p site f (.failing [])) (hslots : f.startLog.length ≤ site.slots) :
    ∃ v, Machine.Keeps p input site.below.length s v ∧
      v.OnTop p site (f.atReplay (f.count - 1) 0 ⟨f.start, f.startLog⟩)
        (.atReplay site.ip site.loop (f.count - 1) 0 ⟨f.start, f.startLog⟩) := by
  have hretry : Config.retryLoop input site.below site.loop f =
      .going ((Config.atReplay site.ip site.loop (f.count - 1) 0 ⟨f.start, f.startLog⟩).on
        (.loop (f.atReplay (f.count - 1) 0 ⟨f.start, f.startLog⟩) :: site.below)) := by
    rw [Config.retryLoop, hphase]
    dsimp only
    rw [if_pos hgreedy, if_pos hcount]
    split
    · next hzero =>
      simp [LoopEntry.atReplay, Config.atReplay, Config.on, hzero, hip]
    · next hne =>
      simp [LoopEntry.atReplay, Config.atReplay, Config.on, Nat.pos_of_ne_zero hne, hip]
  obtain ⟨v, hstep, hv⟩ := h.step (h.fits hslots _) ((Config.step_failing_on (hip ▸ hl)
    (by simp [hphase]) (by simp [hphase]) input site.below).trans hretry)
  exact ⟨v, .step (.refl (lt_sp_of_on h.config)) hstep (lt_sp_of_on hv.config), hv⟩

end MachineState.OnTop

/-- Only a loop that commits its iterations has an entry that is in one. -/
theorem LoopEntry.Regular.commits {size : Nat} (h : f.Regular p l below)
    (hf : p.fetch? f.ip = some (.loop l, size)) (hiterates : f.Iterates) : p.Commits f.ip l := by
  rcases h.phase with ⟨-, hphase, -⟩ | ⟨-, -, hphase⟩ | ⟨hk, hsingle, -⟩ | ⟨-, -, hphase, -⟩
  · rcases hphase with hphase | hphase <;> simp [Iterates, hphase] at hiterates
  · simp [Iterates, hphase] at hiterates
  · exact ⟨⟨size, hf⟩, hk, hsingle⟩
  · exact absurd hiterates (not_iterates hphase)

namespace MachineState.Retraces

variable {c : Config} {target : Nat} (h : s.Retraces p input s₀)
include h

theorem onTop (hc : s.config = c.on (.loop f :: below)) (lo : Nat) (l : Loop) :
    s.OnTop p ⟨lo, l, below, s₀.captures.size, s₀.frames.size⟩ f c :=
  ⟨h.regular.sane, h.regular.size, h.room, hc⟩

/-- An iteration that is made again will be completed. -/
theorem completes (hc : s.config = c.on (.loop f :: below)) (hphase : f.phase = .replaying target) :
    ∃ l t, p.Commits f.ip l ∧
      c.Completes p input ⟨f.ip, l, below, s₀.captures.size, s₀.frames.size⟩ t := by
  have hentry : (Entry.loop f).Regular p below := (hc ▸ h.regular.config).of_on
  obtain ⟨l, size, hf, hentry⟩ := hentry
  have hl := hentry.commits hf (Or.inr ⟨target, hphase⟩)
  obtain ⟨points, hpoints⟩ := h.entries hc hl
  exact ⟨l, _, hl, hpoints.replaying target hphase⟩

/-- **The frame of a loop that iterates again is never taken back.** -/
theorem phase_ne_replaying (hc : s.config = .failing (.loop f :: below)) :
    f.phase ≠ .replaying target := by
  intro hphase
  have hc : s.config = (Config.failing []).on (.loop f :: below) := hc
  obtain ⟨l, t, -, hcompletes⟩ := h.completes hc hphase
  exact hcompletes.ne_failing rfl

/-- **While a loop iterates again, the machine goes on**, and no buffer runs out. -/
theorem running_of_replaying (hmem : .loop f ∈ s.config.stack)
    (hphase : f.phase = .replaying target) : ∃ u, Machine.step p input s = .running u := by
  obtain ⟨above, below, hstack⟩ := List.append_of_mem hmem
  obtain ⟨c, hc⟩ := Config.exists_on_of_suffix ⟨above, hstack.symm⟩
  obtain ⟨l, t, hl, hcompletes⟩ := h.completes hc hphase
  have htop := h.onTop hc f.ip l
  cases hcompletes with
  | ended hends =>
    obtain ⟨u, hstep, -⟩ := htop.commit hl rfl hends rfl
    exact ⟨u, hstep⟩
  | step hpass hfits _ =>
    obtain ⟨u, hstep, -⟩ := htop.step hfits (hpass f rfl)
    exact ⟨u, hstep⟩

end MachineState.Retraces

/-- After `k` iterations, a loop that is replayed with one iteration less is where it was after as
many when it iterated for the first time: a state `w` before `s` and a state `v` after it have the
same offset, the same log and the same frames below that of the loop, which all the states between
keep. -/
def Machine.Repeats (p : Program) (input : Array UInt8) (s₀ s : MachineState) (l : Loop)
    (f : LoopEntry) (below : List Entry) (k : Nat) : Prop :=
  ∃ (t : Point) (w v : MachineState),
    Machine.Reaches p input s₀ w ∧ Machine.Keeps p input below.length w s ∧
    w.config = .running (Loop.body f.ip) t.pos t.log (.loop (f.atIteration k t) :: below) ∧
    Machine.Keeps p input below.length s v ∧
    v.config = .running (if k < f.count - 1 then Loop.body f.ip else l.after f.ip) t.pos t.log
      (.loop (f.atReplay (f.count - 1) k t) :: below)

/-- **The iterations of a greedy loop are made again as they were made.** -/
theorem MachineState.Retraces.repeats (h : s.Retraces p input s₀)
    (hbefore : ∀ w, Machine.Reaches p input s₀ w → w.Retraces p input s₀)
    (hc : s.config = .failing (.loop f :: below)) (hl : p.Commits f.ip l)
    (hgreedy : l.greedy = true) (hphase : f.phase = .exited) (hcount : l.min.toNat < f.count)
    {k : Nat} (hk : k < f.count) : Machine.Repeats p input s₀ s l f below k := by
  have hc : s.config = (Config.failing []).on (.loop f :: below) := hc
  obtain ⟨points, hpoints⟩ := h.entries hc hl
  have hmade := hpoints.made
  rw [LoopEntry.iterations_eq (by simp [hphase])] at hmade
  have hreplay : ∃ v, Machine.Keeps p input below.length s v ∧
      v.OnTop p ⟨f.ip, l, below, s₀.captures.size, s₀.frames.size⟩
        (f.atReplay (f.count - 1) k (points k)) (.atReplay f.ip l (f.count - 1) k (points k)) := by
    induction k with
    | zero =>
      -- The log with which the loop was entered is one that has had room.
      obtain ⟨⟨w, hw, -, hbegins⟩, -⟩ := hmade 0 hk
      have hlog := (hbefore w hw).regular.sane.length_log_le hbegins
      rw [(hbefore w hw).regular.size] at hlog
      have hstart : (points 0).log.length ≤ s₀.captures.size := hlog
      rw [hpoints.start] at hstart ⊢
      exact (h.onTop hc f.ip l).restart hl hgreedy rfl hphase hcount hstart
    | succ k ih =>
      have hlt : k < f.count := Nat.lt_of_succ_lt hk
      obtain ⟨v, hkeeps, hv⟩ := ih hlt
      obtain ⟨u, hmore, hu⟩ :=
        hv.replay hl hgreedy rfl (Nat.lt_sub_of_add_lt hk) (hmade k hlt).2
      exact ⟨u, hkeeps.trans hmore, hu⟩
  obtain ⟨⟨w, hw, hkeeps, hbegins⟩, -⟩ := hmade k hk
  obtain ⟨v, hkeeps', hv⟩ := hreplay
  exact ⟨points k, w, v, hw, hkeeps, hbegins, hkeeps', hv.config⟩

/-! ### Compiled patterns -/

namespace Compiler

variable {c : Compiler} {pattern buffer : List UInt8} {r : Regex}

/-- **A replay repeats what it replays.**  Take any state through which an attempt may pass, at any
offset of any input, with any buffers and whatever the callback does.  The frame that is taken back
is not that of a loop that iterates again.  While there is such a frame, the machine goes on, and no
buffer runs out.  And where the frame is taken back of a greedy loop that commits its iterations and
has been left after more than it must make, the loop iterates again, but once less; after each of
these iterations, the machine is at the offset and has the log that it was at and had when the loop
had made as many for the first time. -/
theorem replay_repeats (h : c.compile pattern buffer = .ok r) {input : Array UInt8} {start : Nat}
    {frames : Array Frame} {captures : Array Capture} {peak : Nat} {s : MachineState}
    (hreaches : Machine.Reaches (.ofCode r.code) input (.initial start frames captures peak) s) :
    (∀ f below target, s.config = .failing (.loop f :: below) → f.phase ≠ .replaying target) ∧
    (∀ f target, .loop f ∈ s.config.stack → f.phase = .replaying target →
      ∃ u, Machine.step (.ofCode r.code) input s = .running u) ∧
    ∀ f below l size, s.config = .failing (.loop f :: below) →
      (Program.ofCode r.code).fetch? f.ip = some (.loop l, size) →
      l.greedy = true → l.keepsFrames = false → l.singleByte = false →
      f.phase = .exited → l.min.toNat < f.count →
        ∀ k < f.count, Machine.Repeats (.ofCode r.code) input (.initial start frames captures peak)
          s l f below k := by
  obtain ⟨e, n, hderives, -, hcode, -, -⟩ := c.compile_derives h
  have hadmissible := admissible_of_compile h
  have hp : (Program.ofCode r.code).Sound := hadmissible.sound r.code_le
  have hs := structured_of_compile h hderives hcode
  have he : (Program.ofCode r.code).Enclosed := Expr.enclosed_code hcode r.code_le hadmissible
  have hzero := (Expr.laidOut_of_code (p := .ofCode r.code) hcode r.code_le).2.2.2
  have hall (w : MachineState)
      (hw : Machine.Reaches (.ofCode r.code) input (.initial start frames captures peak) w) :=
    (MachineState.retraces_initial hzero start frames captures peak).of_reaches hp hs he hw
  refine ⟨fun f below target => (hall s hreaches).phase_ne_replaying,
    fun f target => (hall s hreaches).running_of_replaying, ?_⟩
  intro f below l size hc hf hgreedy hk hsingle hphase hcount k hlt
  exact (hall s hreaches).repeats hall hc ⟨⟨size, hf⟩, hk, hsingle⟩ hgreedy hphase hcount hlt

/-- On `aaa`, the loop of `<a>+a` iterates three times, gives its last iteration back, and is where
it was after each of the other two. -/
theorem replay_repeats_givingBack :
    ({} : Compiler).compile [0x3c, 0x61, 0x3e, 0x2b, 0x61] (List.replicate 31 0) =
        .ok .givingBack ∧
      ∃ s f l, Machine.Reaches (.ofCode Regex.givingBack.code) #[0x61, 0x61, 0x61]
          (.initial 0 (Array.replicate 2 .blank) (Array.replicate 3 .blank) 0) s ∧
        s.config = .failing [.loop f] ∧ f.phase = .exited ∧ f.count = 3 ∧
        ∀ k < 3, Machine.Repeats (.ofCode Regex.givingBack.code) #[0x61, 0x61, 0x61]
          (.initial 0 (Array.replicate 2 .blank) (Array.replicate 3 .blank) 0) s l f [] k := by
  have hstate : (Matcher.trace (.ofCode Regex.givingBack.code) #[0x61, 0x61, 0x61] 0
      Matcher.firstOnly 14 ()
      (.initial 0 (Array.replicate 2 .blank) (Array.replicate 3 .blank) 0)).map
        (fun t => (t.2.mode, t.2.sp, t.2.frames.getD 0 .blank)) =
      some (.backtracking, 1, .loop ⟨0, .exited, 3, 3, 0, 0, 3⟩) := by
    decide +kernel
  obtain ⟨⟨_, s⟩, hs, hstate⟩ := Option.map_eq_some_iff.1 hstate
  simp only [Prod.mk.injEq] at hstate
  obtain ⟨hmode, hsp, hframe⟩ := hstate
  have hreaches := Matcher.reaches_of_trace hs
  have hconfig : s.config = .failing
      [.loop ⟨0, .exited, 3, spans s.captures 3, 0, spans s.captures 0, 3⟩] := by
    rw [MachineState.config, hmode, MachineState.stack, hsp, entries, hframe]
    rfl
  have hloop : (Program.ofCode Regex.givingBack.code).fetch? 0 =
      some (.loop ⟨1, 255, true, false, false, 11⟩, 7) := by
    decide +kernel
  have hcount : (1 : UInt8).toNat < 3 := by decide
  have hrepeats := (Compiler.replay_repeats compile_givingBack hreaches).2.2 _ [] _ 7 hconfig hloop
    rfl rfl rfl rfl hcount
  exact ⟨compile_givingBack, s, _, _, hreaches, hconfig, rfl, rfl, hrepeats⟩

end Compiler

end BoundedRegex
