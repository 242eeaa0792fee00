import BoundedRegex.Proofs.CaptureSlots
import BoundedRegex.Proofs.Match.Halting
import BoundedRegex.Proofs.Regex.Bytes
import BoundedRegex.Proofs.Regex.CheckedLoad

/-!
# Matching loaded patterns

What is promised of a pattern that has been loaded from bytes, whatever they are: loading reads
nothing that is not there, and neither does matching.

It is not promised that matching ends.  `Regex.ofBytes_ends_iff` says when it does, and
`Regex.runaway` is a pattern that can be loaded and that keeps the machine going forever.
-/

namespace BoundedRegex

/-- Code that has been loaded is sound. -/
theorem Regex.sound_of_ofBytes {bytes : List UInt8} {r : Regex} (h : Regex.ofBytes bytes = .ok r) :
    (Program.ofCode r.code).Sound :=
  (ofBytes_eq_ok_iff.1 h).2.sound r.code_le

namespace Matcher

variable {m : Matcher} {input : Array UInt8} {start : Nat}

theorem tryMatch_safe (hp : m.program.Sound) {σ : Type} (f : Callback σ) (Keeps : σ → Prop)
    (hf : ∀ gathered found, Keeps gathered → found.start = start → found.Ordered input.size →
      Keeps (f gathered found).1) {gathered : σ} (hg : Keeps gathered) :
    Keeps (m.tryMatch input start f gathered).gathered ∧
      ∀ found, (m.tryMatch input start f gathered).outcome = .ok (some found) →
        found.start = start ∧ found.Ordered input.size := by
  by_cases hstart : start ≤ input.size
  · rw [tryMatch_eq m hstart]
    exact (MachineState.safe_initial hp hstart m.frames m.captures m.peak).run hp f m.stepLimit hf
      m.stepLimit hg
  · rw [tryMatch, if_neg hstart]
    exact ⟨hg, fun found h => by cases h⟩

theorem matchAt_safe (hp : m.program.Sound) {found : Match}
    (h : (m.matchAt input start).1 = .ok (some found)) :
    found.start = start ∧ found.Ordered input.size :=
  (tryMatch_safe hp firstOnly (fun _ => True) (fun _ _ _ _ _ => trivial) trivial).2 found h

theorem search_safe (hp : m.program.Sound) {count : Nat} {found : Match}
    (h : (m.search input start count).1 = .ok (some found)) :
    start ≤ found.start ∧ found.Ordered input.size := by
  induction count generalizing m start with
  | zero => cases h
  | succ count ih =>
    rw [search] at h
    split at h
    · next m' hm =>
      have hprogram : m'.program = m.program := by
        rw [← program_matchAt m input start, hm]
      obtain ⟨hle, ho⟩ := ih (hprogram ▸ hp) h
      exact ⟨Nat.le_of_succ_le hle, ho⟩
    · obtain ⟨hs, ho⟩ := matchAt_safe hp h
      exact ⟨Nat.le_of_eq hs.symm, ho⟩

theorem findAt_safe (hp : m.program.Sound) {found : Match}
    (h : (m.findAt input start).1 = .ok (some found)) :
    start ≤ found.start ∧ found.Ordered input.size := by
  unfold findAt at h
  split at h <;> exact search_safe hp h

end Matcher

/-- **Loaded code is safe to run.**  Loading fails no read, whatever the bytes.  If they are
accepted, then a matcher with buffers of any lengths passes only through states in which all that
the next step reads is there; and the matches that it reports, to any callback, lie within the
input, and their spans within them. -/
theorem Regex.ofBytes_safe (bytes : List UInt8) :
    Checked.load bytes = some ((Regex.ofBytes bytes).map fun r =>
      (r.code, r.scratchDepth, r.captures, r.loopBound)) ∧
    ∀ r, Regex.ofBytes bytes = .ok r → ∀ m : Matcher, m.program = .ofCode r.code →
      ∀ (input : Array UInt8) (start : Nat),
        (start ≤ input.size → ∀ s,
          Machine.Reaches m.program input (.initial start m.frames m.captures m.peak) s →
            s.InRange m.program input) ∧
        (∀ {σ : Type} (f : Callback σ) (Keeps : σ → Prop) (gathered : σ),
          (∀ gathered found, Keeps gathered → found.start = start → found.Ordered input.size →
            Keeps (f gathered found).1) → Keeps gathered →
          Keeps (m.tryMatch input start f gathered).gathered ∧
            ∀ found, (m.tryMatch input start f gathered).outcome = .ok (some found) →
              found.start = start ∧ found.Ordered input.size) ∧
        (∀ found, (m.matchAt input start).1 = .ok (some found) →
          found.start = start ∧ found.Ordered input.size) ∧
        (∀ found, (m.findAt input start).1 = .ok (some found) →
          start ≤ found.start ∧ found.Ordered input.size) := by
  refine ⟨Checked.load_eq bytes, ?_⟩
  intro r h m hm input start
  have hp : m.program.Sound := hm ▸ Regex.sound_of_ofBytes h
  refine ⟨fun hstart s hs => ?_,
    fun f Keeps gathered hf hg => Matcher.tryMatch_safe hp f Keeps hf hg,
    fun found hfound => Matcher.matchAt_safe hp hfound,
    fun found hfound => Matcher.findAt_safe hp hfound⟩
  have hsafe := MachineState.safe_initial hp hstart m.frames m.captures m.peak
  exact (hsafe.of_reaches hp hs).inRange hp

theorem Regex.ofBytes_aPlus : Regex.ofBytes Regex.aPlus.toBytes = .ok .aPlus :=
  ofBytes_toBytes .aPlus
    (codeFault?_of_locate (locate_cons rfl (locate_cons rfl (locate_cons rfl (locate_nil _)))) rfl)

theorem Regex.ofBytes_safe_aPlus :
    Regex.ofBytes Regex.aPlus.toBytes = .ok .aPlus ∧
      ∀ s, Machine.Reaches (.ofCode Regex.aPlus.code) #[0x61, 0x61]
          (.initial 0 #[.blank] #[] 0) s →
        s.InRange (.ofCode Regex.aPlus.code) #[0x61, 0x61] := by
  obtain ⟨-, hloaded⟩ := Regex.ofBytes_safe Regex.aPlus.toBytes
  have h := hloaded .aPlus ofBytes_aPlus (.ofRegex .aPlus 1 0) rfl #[0x61, 0x61] 0
  exact ⟨ofBytes_aPlus, h.1 (by decide)⟩

/-- **When matching of loaded code ends.**  With whatever buffers, on whatever input and with
whatever callback, an attempt ends just if it comes to end no more iterations of loops that it has
left; and `findAt` ends just if that is so of the attempts that it comes to make. -/
theorem Regex.ofBytes_ends_iff {bytes : List UInt8} {r : Regex} (h : Regex.ofBytes bytes = .ok r)
    {m : Matcher} (hm : m.program = .ofCode r.code) (input : Array UInt8) (start : Nat) :
    (∀ {σ : Type} (f : Callback σ) (gathered : σ),
      m.Ends input start f gathered ↔ m.StaysLeft input start f gathered) ∧
    ((∃ limit, Matcher.Conclusive ((m.limited limit).matchAt input start).1) ↔
      m.StaysLeft input start Matcher.firstOnly ()) ∧
    ((∃ limit, Matcher.Conclusive ((m.limited limit).findAt input start).1) ↔
      ∀ m' offset, Matcher.Tries input m start (m.offsetCount input start) m' offset →
        m'.StaysLeft input offset Matcher.firstOnly ()) := by
  have hp : m.program.Sound := hm ▸ Regex.sound_of_ofBytes h
  exact ⟨fun f gathered => Matcher.ends_iff hp, Matcher.ends_iff hp, Matcher.findAt_ends_iff hp⟩

theorem Regex.ofBytes_givingBack :
    Regex.ofBytes Regex.givingBack.toBytes = .ok .givingBack :=
  ofBytes_toBytes .givingBack (codeFault?_of_locate (locate_cons rfl (locate_cons rfl
    (locate_cons rfl (locate_cons rfl (locate_cons rfl (locate_cons rfl
      (locate_cons rfl (locate_nil _)))))))) rfl)

/-- Matching `<a>+a` ends.  The machine comes to end iterations, first after four steps, and ends
none of a loop that it has left. -/
theorem Regex.ofBytes_ends_iff_givingBack :
    let m := Matcher.ofRegex .givingBack 2 2
    Regex.ofBytes Regex.givingBack.toBytes = .ok .givingBack ∧
      m.program.fetch? 14 = some (.loopEnd (-14), 4) ∧
      (m.stateAfter #[0x61, 0x61] 0 Matcher.firstOnly () 4).map (fun s => (s.2.mode, s.2.ip)) =
        some (.executing, 14) ∧
      m.StaysLeft #[0x61, 0x61] 0 Matcher.firstOnly () := by
  intro m
  obtain ⟨hends, -⟩ := Regex.ofBytes_ends_iff ofBytes_givingBack (m := m) rfl #[0x61, 0x61] 0
  have houtcome : ((m.limited 17).tryMatch #[0x61, 0x61] 0 Matcher.firstOnly ()).outcome =
      .ok (some ⟨0, 2, [⟨0, 0, 1⟩]⟩) := by
    decide +kernel
  refine ⟨ofBytes_givingBack, rfl, by decide +kernel, (hends _ _).1 ⟨17, ?_⟩⟩
  intro limit hlimit
  cases houtcome.symm.trans hlimit

/-- A loop that commits its iterations, inside one that keeps frames.  The code after the inner loop
runs into the end of its iteration (at 29), and that of the outer loop (at 33) behind it. -/
def Regex.runaway : Regex :=
  { code := [
      0xAA, 0x08, 5, 0, 2, 30, 0, -- 0: the outer loop
      0xAA, 0x01, 14, 0, -- 7: to 21, later
      0xAA, 0x06, -- 11: at the start only
      0xAA, 0x08, 1, 1, 1, 13, 0, 0x61, -- 13: the inner loop, of 'a'
      0xAA, 0x01, 8, 0, -- 21: to 29, later
      0xAA, 0x02, 12, 0, -- 25: to 37
      0xAA, 0x09, 0xF0, 0xFF, -- 29: the end of an iteration of the inner loop
      0xAA, 0x09, 0xDF, 0xFF, -- 33: the end of an iteration of the outer loop
      0xAA, 0x00] -- 37: accepts
    scratchDepth := 8
    captures := 0
    loopBound := 0
    code_le := by decide
    loopBound_lt := Nat.pow_pos (Nat.succ_pos 255) }

theorem Regex.ofBytes_runaway : Regex.ofBytes Regex.runaway.toBytes = .ok .runaway :=
  ofBytes_toBytes .runaway (codeFault?_of_locate (locate_cons rfl (locate_cons rfl (locate_cons rfl
    (locate_cons rfl (locate_cons rfl (locate_cons rfl (locate_cons rfl (locate_cons rfl
      (locate_cons rfl (locate_cons rfl (locate_nil _))))))))))) rfl)

/-- A state to which the machine comes back again and again: it has left the inner loop, after
`count` iterations, and is at the end of one of the outer loop. -/
def Regex.runawayState (count : Nat) : MachineState :=
  let outer (pos count : Nat) : LoopFrame :=
    { ip := 0, phase := .boundary, pos, log := 0, start := 0, startLog := 0, count }
  { mode := .executing
    ip := 33
    pos := 1
    sp := 3
    log := 0
    frames := #[
      .loop (outer 0 0),
      .alternative 21 0 0,
      .loop { ip := 13, phase := .exited, pos := 1, log := 0, start := 0, startLog := 0, count },
      .loop (outer 1 1),
      .alternative 29 1 0,
      .blank, .blank, .blank]
    captures := #[]
    peak := 5 }

/-- Each time, one more iteration has been counted, and nothing else has changed. -/
theorem Regex.trace_runawayState (count n : Nat) :
    Matcher.trace (.ofCode Regex.runaway.code) #[0x61] 0 (fun _ _ => ((), .goOn)) (9 * n) ()
      (Regex.runawayState count) = some ((), Regex.runawayState (count + n)) := by
  induction n generalizing count with
  | zero => rfl
  | succ n ih =>
    have hround : Matcher.trace (.ofCode Regex.runaway.code) #[0x61] 0 (fun _ _ => ((), .goOn)) 9 ()
        (Regex.runawayState count) = some ((), Regex.runawayState (count + 1)) := rfl
    rw [Nat.mul_succ, Nat.add_comm, Matcher.trace_add_of_eq hround, ih, Nat.succ_add_eq_add_succ]

theorem Regex.ofBytes_runaway_not_ends :
    Regex.ofBytes Regex.runaway.toBytes = .ok .runaway ∧
      ¬(Matcher.ofRegex .runaway 8 0).Ends #[0x61] 0 (fun _ _ => ((), .goOn)) () := by
  refine ⟨ofBytes_runaway, ?_⟩
  rintro ⟨limit, hlimit⟩
  have hended := (Matcher.stateAfter_eq_none_iff _ _ _ _ _ limit).2 hlimit
  rw [Matcher.stateAfter, if_pos (Nat.zero_le _)] at hended
  have hfirst : Matcher.trace (.ofCode Regex.runaway.code) #[0x61] 0 (fun _ _ => ((), .goOn)) 19 ()
      (.initial 0 (Array.replicate 8 .blank) #[] 0) = some ((), Regex.runawayState 2) := rfl
  -- The machine comes back more often than the limit has steps.
  have hgoing := (Matcher.trace_add_of_eq hfirst (9 * limit)).trans
    (Regex.trace_runawayState 2 limit)
  have hlater := Matcher.trace_eq_none_of_le (by omega : limit ≤ 19 + 9 * limit) hended
  cases hgoing.symm.trans hlater

end BoundedRegex
