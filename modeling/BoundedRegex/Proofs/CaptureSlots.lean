import BoundedRegex.Proofs.Compiled

/-!
# How many slots for captures a match takes

The log holds the captures of the path that is being tried, and the path on which the first match is
found may have been a longer one for a while: a greedy loop logs the captures of iterations that it
gives back.  `FirstMatch` follows an attempt up to its first match and keeps the length of the
longest log on the way.  So many slots are needed, and enough (`Compiler.matchAt_slots`); as many as
the match has captures may be too few (`Matcher.matchAt_givingBack`).
-/

namespace BoundedRegex

/-- From `c`, an attempt comes to its first match at `t`, in as many steps as given, and the longest
log that it has on the way is of length `need`. -/
inductive FirstMatch (p : Program) (input : Array UInt8) : Config → Nat → Nat → Point → Prop where
  | found {c : Config} {t : Point} {stack : List Entry}
      (ha : c.step p input = .accepted t.pos t.log stack) :
      FirstMatch p input c 1 (Nat.max c.log.length t.log.length) t
  | step {c c' : Config} {steps need : Nat} {t : Point} (hs : c.step p input = .going c')
      (h : FirstMatch p input c' steps need t) :
      FirstMatch p input c (steps + 1) (Nat.max c.log.length need) t

namespace FirstMatch

variable {p : Program} {input : Array UInt8} {d steps need : Nat} {c : Config} {t : Point}
  {s : MachineState}

theorem log_le (h : FirstMatch p input c steps need t) : c.log.length ≤ need := by
  cases h with
  | found | step => exact Nat.le_max_left ..

theorem length_le (h : FirstMatch p input c steps need t) : t.log.length ≤ need := by
  induction h with
  | found => exact Nat.le_max_right ..
  | step _ _ ih => exact Nat.le_trans ih (Nat.le_max_right ..)

/-- An attempt that has points comes to the first of them. -/
theorem of_enumerates {points : List Point} (h : Enumerates p input d c (t :: points)) :
    ∃ steps need, FirstMatch p input c steps need t := by
  cases h with
  | found h ha =>
    induction h with
    | refl => exact ⟨1, _, .found ha⟩
    | more _ hs _ ih =>
      obtain ⟨steps, need, ht⟩ := ih ha
      exact ⟨steps + 1, _, .step hs ht⟩

/-- An attempt that stops at its first match follows its configurations up to it. -/
theorem of_run {start limit n : Nat} {found : Match} (hs : s.Sane p)
    (h : (Matcher.run p input start limit Matcher.firstOnly n () s).1 = .ok (some found)) :
    ∃ steps ≤ n, ∃ need t, FirstMatch p input s.config steps need t ∧ found = t.toMatch start := by
  induction n generalizing s with
  | zero => cases h
  | succ n ih =>
    have href := refines_step hs input
    generalize hnext : s.config.step p input = next at href
    rw [Matcher.run] at h
    generalize Machine.step p input s = result at href h
    cases href with
    | running hu hc =>
      obtain ⟨steps, hle, need, t, ht, hfound⟩ := ih hu h
      exact ⟨steps + 1, Nat.succ_le_succ hle, _, t, .step hnext (hc ▸ ht), hfound⟩
    | accepted =>
      cases h
      exact ⟨1, Nat.succ_le_succ (Nat.zero_le n), _, ⟨s.pos, spans s.captures s.log⟩,
        .found hnext, s.toMatch_eq start⟩
    | exhausted | malformed | scratch | log => cases h

/-- With enough frames and steps, an attempt finds its first match just if there are as many slots
for captures as the longest log on the way takes, and otherwise runs out of them. -/
theorem run_eq (h : FirstMatch p input c steps need t) {points : List Point}
    (henum : Enumerates p input d c points) (start limit : Nat) {n : Nat} (hn : steps ≤ n)
    (hs : s.Sane p) (hc : s.config = c) (hd : d ≤ s.frames.size) :
    (Matcher.run p input start limit Matcher.firstOnly n () s).1 =
      if need ≤ s.captures.size then .ok (some (t.toMatch start))
      else .error (.captureBufferExhausted s.captures.size) := by
  have hlog := MachineState.length_log_config_le hs
  have href := refines_step hs input
  rw [hc] at hlog href
  induction h generalizing s points n with
  | @found c t stack ha =>
    obtain ⟨n, rfl⟩ : ∃ k, n = k + 1 := ⟨n - 1, (Nat.sub_add_cancel hn).symm⟩
    rw [ha] at href
    rw [Matcher.run]
    generalize Machine.step p input s = result at href ⊢
    generalize hnext : Next.accepted t.pos t.log stack = next at href
    cases href with
    | accepted =>
      injection hnext with hpos hspans _
      have hlength : t.log.length ≤ s.captures.size := by
        rw [hspans, length_spans hs.log_le]
        exact hs.log_le
      have hmatch : s.toMatch start = t.toMatch start := by rw [s.toMatch_eq, ← hpos, ← hspans]
      rw [if_pos (Nat.max_le.2 ⟨hlog, hlength⟩), ← hmatch]
      rfl
    | _ => cases hnext
  | @step c c' steps need t hstep h ih =>
    obtain ⟨n, rfl⟩ : ∃ k, n = k + 1 :=
      ⟨n - 1, (Nat.sub_add_cancel (Nat.le_of_add_left_le hn)).symm⟩
    have hneed : Nat.max c.log.length need ≤ s.captures.size ↔ need ≤ s.captures.size :=
      Nat.max_le.trans (and_iff_right hlog)
    have hgo := henum.going hstep
    rw [hstep] at href
    rw [Matcher.run]
    simp only [hneed]
    generalize Machine.step p input s = result at href ⊢
    cases href with
    | @running u _ hu hc' hf hk hp _ =>
      rw [← hk]
      have hlog' := MachineState.length_log_config_le hu
      have href' := refines_step hu input
      rw [hc'] at hlog' href'
      exact ih hgo (Nat.le_of_succ_le_succ hn) hu hc' (hf ▸ hd) hlog' href'
    | scratch hsp hlength =>
      -- No configuration of an attempt has more entries than the scratch depth.
      have hle := hgo.length_le
      omega
    | log hfull hlength =>
      have hlt : ¬need ≤ s.captures.size := by
        have hle := h.log_le
        omega
      rw [if_neg hlt]

end FirstMatch

/-- **The slots that a first match takes.**  If `matchAt` finds a match, with as many frames as the
scratch depth, then there is a number of slots for captures that decides whether it does: the length
of the longest log on the way to the match.  That is no less than the captures of the match.  With
so many slots or more, and enough frames and steps, the match is the same, and with less the slots
run out. -/
theorem Compiler.matchAt_slots {c : Compiler} {pattern buffer : List UInt8} {r : Regex}
    (h : c.compile pattern buffer = .ok r) {m : Matcher} (hm : m.program = .ofCode r.code)
    (hframes : r.scratchDepth.toNat ≤ m.frames.size) {input : Array UInt8} {start : Nat}
    {found : Match} (hfound : (m.matchAt input start).1 = .ok (some found)) :
    ∃ steps need, steps ≤ m.stepLimit ∧
      FirstMatch (.ofCode r.code) input (.running 0 start [] []) steps need
        ⟨found.stop, found.captures⟩ ∧
      found.captures.length ≤ need ∧ need ≤ m.captures.size ∧
      ∀ m' : Matcher, m'.program = .ofCode r.code → r.scratchDepth.toNat ≤ m'.frames.size →
        steps ≤ m'.stepLimit →
        (m'.matchAt input start).1 =
          if need ≤ m'.captures.size then .ok (some found)
          else .error (.captureBufferExhausted m'.captures.size) := by
  obtain ⟨e, n, -, hwf, hcode, hdepth, -⟩ := c.compile_derives h
  have hstart : start ≤ input.size := by
    refine Decidable.byContradiction fun hlt => ?_
    rw [Matcher.matchAt, Matcher.tryMatch, if_neg hlt] at hfound
    cases hfound
  have henum : Enumerates (.ofCode r.code) input r.scratchDepth.toNat (.running 0 start [] [])
      (e.results input ⟨start, []⟩) :=
    Expr.enumerates_of_code hwf hcode r.code_le hstart (Nat.le_of_eq hdepth.symm)
  have hrun := hfound
  rw [Matcher.matchAt, Matcher.tryMatch_eq m hstart, hm] at hrun
  obtain ⟨steps, hsteps, need, t, ht, rfl⟩ :=
    FirstMatch.of_run (MachineState.sane_initial ..) hrun
  rw [MachineState.config_initial] at ht
  have hmatchAt (m' : Matcher) (hm' : m'.program = .ofCode r.code)
      (hframes' : r.scratchDepth.toNat ≤ m'.frames.size) (hsteps' : steps ≤ m'.stepLimit) :
      (m'.matchAt input start).1 =
        if need ≤ m'.captures.size then .ok (some (t.toMatch start))
        else .error (.captureBufferExhausted m'.captures.size) := by
    rw [Matcher.matchAt, Matcher.tryMatch_eq m' hstart, hm']
    exact ht.run_eq henum start m'.stepLimit hsteps' (MachineState.sane_initial ..)
      (MachineState.config_initial ..) hframes'
  refine ⟨steps, need, hsteps, ht, ht.length_le, ?_, hmatchAt⟩
  have hsame := (hmatchAt m hm hframes hsteps).symm.trans hfound
  split at hsame
  · assumption
  · cases hsame

/-- The pattern `<a>+a`, compiled. -/
def Regex.givingBack : Regex :=
  { code := [
      0xAA, 0x08, 1, 1, 255, 11, 0, -- 0: the loop
      0xAA, 0x0A, 0, 0x61, -- 7: the capture starts; 'a'
      0xAA, 0x0B, 0, -- 11: the capture ends
      0xAA, 0x09, 0xF2, 0xFF, -- 14: the end of an iteration
      0x61, 0xAA, 0x00] -- 18: 'a'; accepts
    scratchDepth := 2
    captures := 1
    loopBound := 1
    code_le := by decide
    loopBound_lt := Regex.branching.loopBound_lt }

theorem Compiler.compile_givingBack :
    ({} : Compiler).compile [0x3c, 0x61, 0x3e, 0x2b, 0x61] (List.replicate 31 0) =
      .ok .givingBack :=
  compile_eq_ok (by decide +kernel)

theorem Matcher.matchAt_givingBack :
    ((ofRegex .givingBack 2 2).matchAt #[0x61, 0x61] 0).1 = .ok (some ⟨0, 2, [⟨0, 0, 1⟩]⟩) ∧
      ((ofRegex .givingBack 2 1).matchAt #[0x61, 0x61] 0).1 =
        .error (.captureBufferExhausted 1) := by
  decide +kernel

/-- On `aa` the match of `<a>+a` has one capture, and takes two slots. -/
theorem Compiler.matchAt_slots_givingBack :
    ({} : Compiler).compile [0x3c, 0x61, 0x3e, 0x2b, 0x61] (List.replicate 31 0) =
        .ok .givingBack ∧
      ∃ steps, FirstMatch (.ofCode Regex.givingBack.code) #[0x61, 0x61] (.running 0 0 [] []) steps 2
        ⟨2, [⟨0, 0, 1⟩]⟩ := by
  obtain ⟨steps, need, hsteps, ht, -, hle, hslots⟩ := Compiler.matchAt_slots
    Compiler.compile_givingBack (m := .ofRegex .givingBack 2 2) rfl (Nat.le_refl 2)
    Matcher.matchAt_givingBack.1
  have hfew := hslots (.ofRegex .givingBack 2 1) rfl (Nat.le_refl 2) hsteps
  rw [Matcher.matchAt_givingBack.2] at hfew
  have hlt : ¬need ≤ 1 := by
    split at hfew
    · cases hfew
    · next hlt => exact hlt
  obtain rfl : need = 2 := Nat.le_antisymm hle (Nat.lt_of_not_le hlt)
  exact ⟨Compiler.compile_givingBack, steps, ht⟩

/-- **As many slots as the match has captures may be too few.**  No capture of `<a>+a` is outside
the loop.  On `aa` the match has one capture, and is not found with one slot: the loop takes both
bytes, and logs a second capture, before it gives one of them back. -/
theorem Compiler.captures_length_not_enough :
    ({} : Compiler).compile [0x3c, 0x61, 0x3e, 0x2b, 0x61] (List.replicate 31 0) =
        .ok .givingBack ∧
      ∃ found : Match,
        ((Matcher.ofRegex .givingBack Regex.givingBack.scratchDepth.toNat 2).matchAt
          #[0x61, 0x61] 0).1 = .ok (some found) ∧
        ((Matcher.ofRegex .givingBack Regex.givingBack.scratchDepth.toNat
          (Nat.max found.captures.length Regex.givingBack.fixedCaptureSlots)).matchAt
            #[0x61, 0x61] 0).1 = .error (.captureBufferExhausted 1) := by
  obtain ⟨hmany, hfew⟩ := Matcher.matchAt_givingBack
  exact ⟨Compiler.compile_givingBack, _, hmany, hfew⟩

end BoundedRegex
