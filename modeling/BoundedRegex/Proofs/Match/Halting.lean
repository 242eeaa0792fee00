import BoundedRegex.Proofs.Match.Calls
import BoundedRegex.Proofs.Match.SafeRuns
import BoundedRegex.Proofs.Match.Weight

/-!
# When attempts end

The limit on steps is there so that an attempt is a function; here it is taken away.  An attempt
*ends* if some number of steps is enough for it (`Matcher.Ends`), whatever it comes to.

`Matcher.ends_iff`: an attempt at running sound code ends just if it comes to end no more iterations
of loops that it has left (`Matcher.StaysLeft`).  All other steps lead to lighter configurations.
`Matcher.findAt_ends_iff` says the same of the attempts that `findAt` comes to make.
-/

namespace BoundedRegex

/-! ### Steps one by one -/

namespace Matcher

/-- What a run from a state has come to after some steps, and what the callback has gathered by
then; none if the run has ended. -/
def trace {σ : Type} (p : Program) (input : Array UInt8) (start : Nat) (f : Callback σ) :
    Nat → σ → MachineState → Option (σ × MachineState)
  | 0, gathered, s => some (gathered, s)
  | steps + 1, gathered, s =>
    match Machine.step p input s with
    | .running s => trace p input start f steps gathered s
    | .accepted s =>
      match f gathered (s.toMatch start) with
      | (_, .stop) => none
      | (gathered, .goOn) =>
        trace p input start f steps gathered { s with mode := .backtracking }
    | _ => none

variable {p : Program} {input : Array UInt8} {start : Nat} {σ : Type} {f : Callback σ}

theorem trace_add (a b : Nat) (gathered : σ) (s : MachineState) :
    trace p input start f (a + b) gathered s =
      (trace p input start f a gathered s).bind fun (g, t) => trace p input start f b g t := by
  induction a generalizing gathered s with
  | zero => rw [Nat.zero_add, trace, Option.bind_some]
  | succ a ih =>
    rw [Nat.succ_add, trace, trace]
    split
    · exact ih ..
    · split
      · rfl
      · exact ih ..
    · rfl

theorem trace_add_of_eq {a : Nat} {gathered g : σ} {s t : MachineState}
    (h : trace p input start f a gathered s = some (g, t)) (b : Nat) :
    trace p input start f (a + b) gathered s = trace p input start f b g t := by
  rw [trace_add, h, Option.bind_some]

/-- A run that has ended has ended for good. -/
theorem trace_eq_none_of_le {a b : Nat} (hab : a ≤ b) {gathered : σ} {s : MachineState}
    (h : trace p input start f a gathered s = none) :
    trace p input start f b gathered s = none := by
  rw [← Nat.add_sub_of_le hab, trace_add, h, Option.bind_none]

/-- What a run comes to, whatever its callback, an attempt may pass through. -/
theorem reaches_of_trace {n : Nat} {gathered g : σ} {s t : MachineState}
    (h : trace p input start f n gathered s = some (g, t)) : Machine.Reaches p input s t := by
  induction n generalizing gathered s with
  | zero =>
    cases h
    exact .refl
  | succ n ih =>
    rw [trace] at h
    split at h
    · next hs => exact (Machine.Reaches.refl.step hs).trans (ih h)
    · next hs =>
      split at h
      · cases h
      · exact (Machine.Reaches.refl.resume hs).trans (ih h)
    · cases h

/-- An outcome that is not for want of steps: a match, none, or a buffer that is too small. -/
def Conclusive (outcome : Except MatchError (Option Match)) : Prop :=
  ∀ limit, outcome ≠ .error (.stepsExhausted limit)

/-- The steps suffice just if the run has ended after them. -/
theorem conclusive_run_iff (limit steps : Nat) (gathered : σ) {s : MachineState} (hs : s.Sane p) :
    Conclusive (run p input start limit f steps gathered s).1 ↔
      trace p input start f steps gathered s = none := by
  induction steps generalizing gathered s with
  | zero => exact ⟨fun h => absurd rfl (h limit), fun h => by cases h⟩
  | succ steps ih =>
    have href := refines_step hs input
    generalize s.config.step p input = next at href
    rw [run, trace]
    generalize Machine.step p input s = result at href ⊢
    cases href with
    | running hu => exact ih gathered hu
    | accepted =>
      dsimp only
      generalize f gathered (s.toMatch start) = answer
      obtain ⟨gathered', action⟩ := answer
      cases action with
      | goOn => exact ih gathered' hs.backtracking
      | stop => exact ⟨fun _ => rfl, fun _ _ h => by cases h⟩
    | exhausted | malformed | scratch | log => exact ⟨fun _ => rfl, fun _ _ h => by cases h⟩

/-- Steps that suffice lead to the same as any more steps. -/
theorem run_eq_of_le {a b limit : Nat} (hab : a ≤ b) {gathered : σ} {s : MachineState}
    (h : trace p input start f a gathered s = none) (limit' : Nat) :
    run p input start limit' f b gathered s = run p input start limit f a gathered s := by
  induction a generalizing b gathered s with
  | zero => cases h
  | succ a ih =>
    obtain ⟨b, rfl⟩ : ∃ b', b = b' + 1 := ⟨b - 1, by omega⟩
    have hab := Nat.le_of_succ_le_succ hab
    rw [trace] at h
    rw [run, run]
    generalize Machine.step p input s = result at h ⊢
    cases result with
    | running u => exact ih hab h
    | accepted u =>
      dsimp only at h ⊢
      generalize f gathered (u.toMatch start) = answer at h ⊢
      obtain ⟨gathered', action⟩ := answer
      cases action with
      | goOn => exact ih hab h
      | stop => rfl
    | exhausted | overflowed | malformed => rfl

end Matcher

/-! ### Safe runs -/

namespace MachineState.Safe

variable {p : Program} {input : Array UInt8} {start : Nat} {σ : Type} {f : Callback σ}
  {gathered : σ} {s : MachineState}

/-- What a step of a run in a safe state comes to: another safe state, and it is a lighter one if
the step does not end an iteration of a loop that has been left; or the end of the run. -/
theorem trace_succ (h : s.Safe p input start) (hp : p.Sound) (gathered : σ) :
    (∃ gathered' u, u.Safe p input start ∧ u.frames.size = s.frames.size ∧
      (s.config.endsLeft p = false →
        Lower (u.config.weight p input) (s.config.weight p input)) ∧
      ∀ n, Matcher.trace p input start f (n + 1) gathered s =
        Matcher.trace p input start f n gathered' u) ∨
    ∀ n, Matcher.trace p input start f (n + 1) gathered s = none := by
  have href := refines_step h.sane input
  have hsafe := h.step hp
  have hlighter (hleft : s.config.endsLeft p = false) :=
    Config.lighter_step hp h.config hleft
  generalize s.config.step p input = next at href hlighter
  simp only [Matcher.trace]
  generalize Machine.step p input s = result at href hsafe ⊢
  cases href with
  | @running u c _ hc hframes =>
    subst hc
    exact Or.inl ⟨gathered, u, hsafe, hframes, hlighter, fun _ => rfl⟩
  | accepted =>
    dsimp only
    generalize f gathered (s.toMatch start) = answer
    obtain ⟨gathered', action⟩ := answer
    cases action with
    | goOn => exact Or.inl ⟨gathered', _, hsafe.1, rfl, hlighter, fun _ => rfl⟩
    | stop => exact Or.inr fun _ => rfl
  | exhausted | malformed | scratch | log => exact Or.inr fun _ => rfl

/-- The states of a run are safe, and have as many frames. -/
theorem of_trace (h : s.Safe p input start) (hp : p.Sound) {n : Nat} {gathered' : σ}
    {u : MachineState} (hu : Matcher.trace p input start f n gathered s = some (gathered', u)) :
    u.Safe p input start := by
  induction n generalizing gathered s with
  | zero =>
    cases hu
    exact h
  | succ n ih =>
    rcases h.trace_succ hp (f := f) gathered with ⟨g, t, ht, -, -, htrace⟩ | hnone
    · exact ih ht (htrace n ▸ hu)
    · cases (hnone n).symm.trans hu

/-- A run that ends no iteration of a loop that it has left gets lighter from step to step, and
there is an end to that. -/
theorem trace_ends (h : s.Safe p input start) (hp : p.Sound)
    (hleft : ∀ k g u, Matcher.trace p input start f k gathered s = some (g, u) →
      u.config.endsLeft p = false) :
    ∃ n, Matcher.trace p input start f n gathered s = none := by
  have hbound {u : MachineState} (hu : u.Safe p input start)
      (hframes : u.frames.size = s.frames.size) :
      (u.config.weight p input).length ≤ 4 * s.frames.size + 2 := by
    have hlen := u.config.length_weight_le p input
    have hsp := hu.sane.sp_le
    rw [u.length_stack_config] at hlen
    omega
  have hacc := Lower.acc _ _ (hbound h rfl)
  generalize hw : s.config.weight p input = w at hacc
  generalize hsize : s.frames.size = size at hacc hbound
  induction hacc generalizing s gathered with
  | intro w _ ih =>
    rcases h.trace_succ hp (f := f) gathered with ⟨g, t, ht, hframes, hlower, htrace⟩ | hnone
    · have hlower := hw ▸ hlower (hleft 0 gathered s rfl)
      have hsize : t.frames.size = size := hframes.trans hsize
      obtain ⟨n, hn⟩ := ih _ ⟨hbound ht hsize, hlower⟩ ht
        (fun k g' u hu => hleft (k + 1) g' u ((htrace k).trans hu)) rfl hsize
      exact ⟨n + 1, (htrace n).trans hn⟩
    · exact ⟨1, hnone 0⟩

end MachineState.Safe

/-! ### Attempts -/

namespace Matcher

variable {m : Matcher} {input : Array UInt8} {start : Nat} {σ : Type} {f : Callback σ}
  {gathered : σ}

/-- A matcher with another limit on the steps. -/
def limited (m : Matcher) (limit : Nat) : Matcher :=
  { m with stepLimit := limit }

/-- Some number of steps is enough for an attempt. -/
def Ends (m : Matcher) (input : Array UInt8) (start : Nat) (f : Callback σ) (gathered : σ) : Prop :=
  ∃ limit, Conclusive ((m.limited limit).tryMatch input start f gathered).outcome

/-- What an attempt has come to after some steps; none if it has ended by then. -/
def stateAfter (m : Matcher) (input : Array UInt8) (start : Nat) (f : Callback σ) (gathered : σ)
    (steps : Nat) : Option (σ × MachineState) :=
  if start ≤ input.size then
    trace m.program input start f steps gathered (.initial start m.frames m.captures m.peak)
  else none

/-- After some steps, an attempt ends no more iterations of loops that it has left. -/
def StaysLeft (m : Matcher) (input : Array UInt8) (start : Nat) (f : Callback σ) (gathered : σ) :
    Prop :=
  ∃ n, ∀ k, n ≤ k → ∀ g s, m.stateAfter input start f gathered k = some (g, s) →
    s.config.endsLeft m.program = false

theorem stateAfter_eq_none_iff (m : Matcher) (input : Array UInt8) (start : Nat) (f : Callback σ)
    (gathered : σ) (limit : Nat) :
    m.stateAfter input start f gathered limit = none ↔
      Conclusive ((m.limited limit).tryMatch input start f gathered).outcome := by
  unfold stateAfter
  split
  · next hstart =>
    rw [tryMatch_eq _ hstart]
    exact (conclusive_run_iff limit limit gathered (MachineState.sane_initial ..)).symm
  · next hstart =>
    rw [tryMatch, if_neg hstart]
    exact ⟨fun _ => (fun _ h => by cases h), fun _ => rfl⟩

/-- **An attempt at running sound code ends just if it comes to end no more iterations of loops that
it has left.** -/
theorem ends_iff (hp : m.program.Sound) :
    m.Ends input start f gathered ↔ m.StaysLeft input start f gathered := by
  have hends : m.Ends input start f gathered ↔
      ∃ n, m.stateAfter input start f gathered n = none :=
    exists_congr fun n => (m.stateAfter_eq_none_iff input start f gathered n).symm
  rw [hends]
  unfold StaysLeft stateAfter
  split
  · next hstart =>
    have hsafe := MachineState.safe_initial hp hstart m.frames m.captures m.peak
    constructor
    · rintro ⟨n, hn⟩
      refine ⟨n, ?_⟩
      intro k hk g s hs
      cases (trace_eq_none_of_le hk hn).symm.trans hs
    · rintro ⟨n, hn⟩
      cases hstate : trace m.program input start f n gathered
        (.initial start m.frames m.captures m.peak) with
      | none => exact ⟨n, hstate⟩
      | some x =>
        obtain ⟨g, s⟩ := x
        -- From the state after `n` steps on, the run gets lighter.
        obtain ⟨k, hk⟩ := (hsafe.of_trace hp hstate).trace_ends hp fun k g' u hu =>
          hn (n + k) (Nat.le_add_right n k) g' u ((trace_add_of_eq hstate k).trans hu)
        exact ⟨n + k, (trace_add_of_eq hstate k).trans hk⟩
  · exact ⟨fun _ => ⟨0, fun _ _ _ _ h => by cases h⟩, fun _ => ⟨0, rfl⟩⟩

/-! ### Searches -/

/-- The attempts that a search at `count` offsets, from `start` on, comes to make: the matcher then,
and the offset. -/
inductive Tries (input : Array UInt8) : Matcher → Nat → Nat → Matcher → Nat → Prop where
  | here {m : Matcher} {start count : Nat} : Tries input m start (count + 1) m start
  | next {m m' m₁ : Matcher} {start count offset limit : Nat}
      (h : (m.limited limit).matchAt input start = (.ok none, m'))
      (t : Tries input m' (start + 1) count m₁ offset) : Tries input m start (count + 1) m₁ offset

/-- At how many offsets, from `start` on, `findAt` may try. -/
def offsetCount (m : Matcher) (input : Array UInt8) (start : Nat) : Nat :=
  if m.isAnchored then if start = 0 then 1 else 0 else input.size + 1 - start

theorem findAt_eq_search (m : Matcher) (input : Array UInt8) (start : Nat) :
    m.findAt input start = m.search input start (m.offsetCount input start) := by
  unfold findAt offsetCount
  split
  · rfl
  · rfl

theorem program_matchAt (m : Matcher) (input : Array UInt8) (start : Nat) :
    (m.matchAt input start).2.program = m.program := by
  by_cases hstart : start ≤ input.size
  · rw [matchAt, tryMatch_eq m hstart]
  · rw [matchAt, tryMatch, if_neg hstart]

/-- An attempt keeps the limit on its steps. -/
theorem limited_matchAt (m : Matcher) (input : Array UInt8) (start limit : Nat) :
    ((m.limited limit).matchAt input start).2.limited limit =
      ((m.limited limit).matchAt input start).2 := by
  by_cases hstart : start ≤ input.size
  · rw [matchAt, tryMatch_eq _ hstart]
    rfl
  · rw [matchAt, tryMatch, if_neg hstart]
    rfl

section

variable {a b count : Nat} {outcome : Except MatchError (Option Match)} {m' : Matcher}

/-- What an attempt comes to when the steps suffice, it comes to with more steps. -/
theorem matchAt_of_le (hab : a ≤ b) (ho : Conclusive outcome)
    (h : (m.limited a).matchAt input start = (outcome, m')) :
    (m.limited b).matchAt input start = (outcome, m'.limited b) := by
  unfold matchAt at h ⊢
  by_cases hstart : start ≤ input.size
  · rw [tryMatch_eq _ hstart] at h ⊢
    have hsane := MachineState.sane_initial m.program start m.frames m.captures m.peak
    have hended : trace m.program input start firstOnly a ()
        (.initial start m.frames m.captures m.peak) = none :=
      (conclusive_run_iff a a () hsane).1 (by cases h; exact ho)
    have hrun : run m.program input start b firstOnly b ()
        (.initial start m.frames m.captures m.peak) =
          run m.program input start a firstOnly a ()
            (.initial start m.frames m.captures m.peak) :=
      run_eq_of_le hab hended b
    cases h
    dsimp only [limited]
    rw [hrun]
  · rw [tryMatch, if_neg hstart] at h ⊢
    cases h
    rfl

/-- Any two numbers of steps that suffice lead to the same. -/
theorem matchAt_of_conclusive (ho : Conclusive outcome)
    (h : (m.limited a).matchAt input start = (outcome, m'))
    (hb : Conclusive ((m.limited b).matchAt input start).1) :
    (m.limited b).matchAt input start = (outcome, m'.limited b) := by
  rcases Nat.le_total a b with hab | hba
  · exact matchAt_of_le hab ho h
  · have hlimited := limited_matchAt m input start b
    generalize hfound : (m.limited b).matchAt input start = found at hb hlimited ⊢
    obtain ⟨o, m₁⟩ := found
    cases h.symm.trans (matchAt_of_le hba hb hfound)
    exact congrArg (Prod.mk o) hlimited.symm

theorem search_of_le (hab : a ≤ b) (ho : Conclusive outcome)
    (h : (m.limited a).search input start count = (outcome, m')) :
    (m.limited b).search input start count = (outcome, m'.limited b) := by
  induction count generalizing m start with
  | zero =>
    cases h
    rfl
  | succ count ih =>
    have hlimited := limited_matchAt m input start a
    rw [search] at h ⊢
    generalize hmatch : (m.limited a).matchAt input start = found at h hlimited
    obtain ⟨o, m₁⟩ := found
    cases o with
    | error =>
      cases h
      rw [matchAt_of_le hab ho hmatch]
    | ok found =>
      cases found with
      | some =>
        cases h
        rw [matchAt_of_le hab ho hmatch]
      | none =>
        rw [matchAt_of_le hab (fun _ h => by cases h) hmatch]
        dsimp only at h hlimited ⊢
        rw [← hlimited] at h
        exact ih h

end

/-- A search is conclusive only if its first attempt is. -/
theorem conclusive_of_search {count : Nat}
    (h : Conclusive (m.search input start (count + 1)).1) :
    Conclusive (m.matchAt input start).1 := by
  intro limit hlimit
  rw [search] at h
  generalize m.matchAt input start = found at h hlimit
  obtain ⟨o, m₁⟩ := found
  cases hlimit
  exact h limit rfl

/-- A search ends just if all the attempts end that it comes to make. -/
theorem search_ends_iff {count : Nat} :
    (∃ limit, Conclusive ((m.limited limit).search input start count).1) ↔
      ∀ m' offset, Tries input m start count m' offset → m'.Ends input offset firstOnly () := by
  constructor
  · rintro ⟨limit, hlimit⟩ m' offset t
    induction t with
    | here => exact ⟨limit, conclusive_of_search hlimit⟩
    | next h t ih =>
      have hmatch := matchAt_of_conclusive (fun _ h => by cases h) h (conclusive_of_search hlimit)
      rw [search, hmatch] at hlimit
      exact ih hlimit
  · intro h
    induction count generalizing m start with
    | zero => exact ⟨0, fun _ h => by cases h⟩
    | succ count ih =>
      obtain ⟨a, ha⟩ := h m start .here
      have ha : Conclusive ((m.limited a).matchAt input start).1 := ha
      generalize hmatch : (m.limited a).matchAt input start = found at ha
      obtain ⟨o, m₁⟩ := found
      cases o with
      | error =>
        refine ⟨a, ?_⟩
        rw [search, hmatch]
        exact ha
      | ok found =>
        cases found with
        | some =>
          refine ⟨a, ?_⟩
          rw [search, hmatch]
          exact ha
        | none =>
          obtain ⟨b, hb⟩ := ih fun m' offset t => h m' offset (.next hmatch t)
          -- As many steps suffice as the attempt or the rest of the search needs.
          refine ⟨a.max b, ?_⟩
          rw [search, matchAt_of_le (Nat.le_max_left a b) (fun _ h => by cases h) hmatch]
          generalize hrest : (m₁.limited b).search input (start + 1) count = rest at hb
          obtain ⟨o', m₂⟩ := rest
          show Conclusive ((m₁.limited (a.max b)).search input (start + 1) count).1
          rw [search_of_le (Nat.le_max_right a b) hb hrest]
          exact hb

theorem Tries.program_eq {m' : Matcher} {count offset : Nat}
    (t : Tries input m start count m' offset) : m'.program = m.program := by
  induction t with
  | here => rfl
  | @next m m' _ start _ _ limit h _ ih =>
    have hprogram := program_matchAt (m.limited limit) input start
    rw [h] at hprogram
    exact ih.trans hprogram

/-- **`findAt` ends on sound code just if the attempts that it comes to make end no more iterations,
after some steps, of loops that they have left.** -/
theorem findAt_ends_iff (hp : m.program.Sound) :
    (∃ limit, Conclusive ((m.limited limit).findAt input start).1) ↔
      ∀ m' offset, Tries input m start (m.offsetCount input start) m' offset →
        m'.StaysLeft input offset firstOnly () := by
  have hsearch (limit : Nat) : (m.limited limit).findAt input start =
      (m.limited limit).search input start (m.offsetCount input start) :=
    findAt_eq_search ..
  simp only [hsearch, search_ends_iff]
  refine forall_congr' fun m' => forall_congr' ?_
  intro offset
  constructor
  · intro h t
    exact (ends_iff (t.program_eq ▸ hp)).1 (h t)
  · intro h t
    exact (ends_iff (t.program_eq ▸ hp)).2 (h t)

end Matcher

end BoundedRegex
