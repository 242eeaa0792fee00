import BoundedRegex.Proofs.Match.LoopCode

/-!
# Loops that commit their iterations

Such a loop has one frame.  Each iteration takes the first point that the body offers and drops
the frames the body has left, so that only the number of iterations is left to try.  From `s₀`,
with iterations that lead to `s₀, s₁, …, s_K`, a greedy loop offers `s_K, …, s_min`: it goes back
to the start and replays one iteration less.  Any other loop offers `s_min, …, s_K`, one iteration
more at a time.
-/

namespace BoundedRegex

variable {p : Program} {input : Array UInt8} {l : Loop} {a m w r d : Nat} {ids : List UInt8}
  {f : Point → List Point} {S : List Entry} {s₀ s t : Point}

/-- Iterations from `s₀` have come to `s`, through the earlier points, the latest first. -/
inductive Iterated (f : Point → List Point) (s₀ : Point) : Point → List Point → Prop where
  | start : Iterated f s₀ s₀ []
  | next {s t : Point} {earlier : List Point} (h : Iterated f s₀ s earlier)
      (ht : (f s).head? = some t) : Iterated f s₀ t (s :: earlier)

/-- Taken in order of priority, a point between those still to come and those before it can be
counted with either. -/
theorem reverse_drop_cons (later earlier : List Point) (min k : Nat) :
    ((s :: later).drop (min - k)).reverse ++ earlier.take (k - min) =
      (later.drop (min - (k + 1))).reverse ++ (s :: earlier).take (k + 1 - min) := by
  by_cases hk : min ≤ k
  · rw [Nat.sub_eq_zero_of_le hk, Nat.sub_eq_zero_of_le (Nat.le_succ_of_le hk),
      show k + 1 - min = k - min + 1 by omega]
    simp
  · rw [show min - k = min - (k + 1) + 1 by omega, Nat.sub_eq_zero_of_le (Nat.le_of_not_le hk),
      show k + 1 - min = 0 by omega]
    simp

namespace LoopCode

section

variable (h : LoopCode p input l a m w r ids f)

include h

theorem pos_le_size {earlier : List Point} (hit : Iterated f s₀ s earlier)
    (hs : s₀.pos ≤ input.size) : s.pos ≤ input.size := by
  induction hit with
  | start => exact hs
  | next _ ht ih => exact h.within _ _ (List.mem_of_mem_head? ht) ih

/-- At the end of the input the body finds nothing. -/
theorem head?_eq_none (hs : s.pos ≤ input.size) (hend : input.size ≤ s.pos) :
    (f s).head? = none := by
  cases ht : (f s).head? with
  | none => rfl
  | some t =>
    have hlt := h.consumes _ _ (List.mem_of_mem_head? ht)
    have hle := h.within _ _ (List.mem_of_mem_head? ht) hs
    omega

/-- No iteration follows where the input ends, or the bound is reached. -/
theorem iterates_last {n k : Nat} (hs : s.pos ≤ input.size) (hleft : l.Left input n k s)
    (hend : ¬(s.pos < input.size ∧ l.allowsMore k = true)) : iterates f n s = [s] := by
  by_cases hpos : s.pos < input.size
  · have hmore : l.allowsMore k = false := eq_false_of_ne_true fun hm => hend ⟨hpos, hm⟩
    rw [hleft.eq_zero hmore, iterates]
  · exact iterates_of_none (h.head?_eq_none hs (Nat.le_of_not_lt hpos))

/-- The bounds allow an iteration that the least number asks for. -/
theorem allowsMore_of_lt {k : Nat} (hk : k < l.min.toNat) : l.allowsMore k = true := by
  rcases h.min_le_max with hmax | hle
  · simp [Loop.allowsMore, hmax]
  · have : k < l.max.toNat := Nat.lt_of_lt_of_le hk hle
    simp [Loop.allowsMore, this]

/-! ### Single steps -/

/-- The machine fails back to the frame of a loop. -/
theorem step_retry (phase : LoopPhase) (hc : phase ≠ .counter) (hb : phase ≠ .boundary)
    (s₀ s : Point) (k : Nat) :
    (Config.failing (.ofLoop a phase s₀ s k :: S)).step p input =
      Config.retryLoop input S l ⟨a, phase, s.pos, s.log, s₀.pos, s₀.log, k⟩ := by
  simp [Config.step, Config.backtrack, Entry.ofLoop, h.fetch, if_neg hc, if_neg hb, h.singleByte]

/-- An iteration that finds nothing fails back to the frame of the loop. -/
theorem iteration_none (hf : (f s).head? = none) (hs : s.pos ≤ input.size)
    (hd : S.length + (1 + w) ≤ d) (e : Entry) :
    Steps p input d (.running (Loop.body a) s.pos s.log (e :: S)) (.failing (e :: S)) := by
  have hbody := h.body d (e :: S) s hs (by rw [List.length_cons]; omega)
  rw [List.head?_eq_none_iff.1 hf] at hbody
  cases hbody with
  | none hsteps => exact hsteps

/-- A loop that is not greedy and whose body finds nothing more fails. -/
theorem steps_last (hg : l.greedy = false) (hnone : (f s).head? = none) (hs : s.pos ≤ input.size)
    (hd : S.length + (1 + w) ≤ d) (k : Nat) :
    Steps p input d (.running (Loop.body a) s.pos s.log (.ofLoop a .iterating s₀ s k :: S))
      (.failing S) := by
  have hback := h.step_retry .iterating (S := S) (by decide) (by decide) s₀ s k
  simp only [Config.retryLoop, hg, Bool.false_eq_true, false_and, if_false] at hback
  refine (h.iteration_none hnone hs hd _).trans (.one ?_ hback (by show S.length ≤ d; omega))
  show S.length + 1 ≤ d
  omega

/-- An iteration takes the first point that the body offers. -/
theorem iteration_some (hk : l.keepsFrames = false) (hf : (f s).head? = some t)
    (hs : s.pos ≤ input.size) (hd : S.length + (1 + w) ≤ d) {g : LoopEntry} (hg : g.ip = a)
    {c : Config} (hc : Config.commitIteration input t.pos t.log S l g = .going c)
    (hlen : c.stack.length ≤ d) :
    Steps p input d (.running (Loop.body a) s.pos s.log (.loop g :: S)) c := by
  have hbody := h.body d (.loop g :: S) s hs (by rw [List.length_cons]; omega)
  obtain ⟨rest, hrest⟩ := List.head?_eq_some_iff.1 hf
  rw [hrest] at hbody
  cases hbody with
  | some hsteps hof =>
    refine hsteps.trans (.one hsteps.length_right ?_ hlen)
    rw [h.step_end hof hg, hk]
    exact hc

end

variable {k : Nat}

/-- A first pass that is not over goes on with the next iteration. -/
theorem commit_again (hne : t.pos ≠ s.pos)
    (hagain : k + 1 < l.min.toNat ∨
      (l.greedy = true ∧ t.pos < input.size ∧ l.allowsMore (k + 1) = true)) :
    Config.commitIteration input t.pos t.log S l
        ⟨a, .iterating, s.pos, s.log, s₀.pos, s₀.log, k⟩ =
      .run (Loop.body a) t.pos t.log (.ofLoop a .iterating s₀ t (k + 1) :: S) := by
  simp [Config.commitIteration, Entry.ofLoop, hne, and_assoc, hagain]

/-- A first pass that is over leaves the loop. -/
theorem commit_leave (hne : t.pos ≠ s.pos)
    (hleave : ¬(k + 1 < l.min.toNat ∨
      (l.greedy = true ∧ t.pos < input.size ∧ l.allowsMore (k + 1) = true))) :
    Config.commitIteration input t.pos t.log S l
        ⟨a, .iterating, s.pos, s.log, s₀.pos, s₀.log, k⟩ =
      .run (l.after a) t.pos t.log (.ofLoop a .exited s₀ t (k + 1) :: S) := by
  simp [Config.commitIteration, Entry.ofLoop, hne, and_assoc, hleave]

/-! ### Greedy loops -/

section

variable (h : LoopCode p input l a m w r ids f) (hk : l.keepsFrames = false)
  (hd : S.length + (1 + w) ≤ d)

include h hk hd

/-- A replay repeats the iterations up to its target, and leaves the loop there. -/
theorem replay {earlier : List Point} (hit : Iterated f s₀ s earlier) (hs₀ : s₀.pos ≤ input.size)
    {target : Nat} (hpos : 0 < target) (hle : earlier.length ≤ target) :
    Steps p input d
      (.running (Loop.body a) s₀.pos s₀.log (.ofLoop a (.replaying target) s₀ s₀ 0 :: S))
      (if earlier.length < target then
        .running (Loop.body a) s.pos s.log
          (.ofLoop a (.replaying target) s₀ s earlier.length :: S)
      else
        .running (l.after a) s.pos s.log (.ofLoop a .exited s₀ s earlier.length :: S)) := by
  have hlen (e : Entry) : (e :: S).length ≤ d := by rw [List.length_cons]; omega
  induction hit with
  | start => rw [if_pos (by simpa using hpos)]; exact .refl (hlen _)
  | @next s t earlier hit ht ih =>
    rw [List.length_cons] at hle
    have hprev := ih (by omega)
    rw [if_pos (by omega)] at hprev
    have hne : t.pos ≠ s.pos := Nat.ne_of_gt (h.consumes _ _ (List.mem_of_mem_head? ht))
    refine hprev.trans (h.iteration_some hk ht (h.pos_le_size hit hs₀) hd rfl ?_ ?_)
    · by_cases hlt : earlier.length + 1 < target <;>
        simp [Config.commitIteration, Entry.ofLoop, hlt, hne]
    · split <;> exact hlen _

/-- A greedy loop that has been left with `k` iterations offers those with fewer. -/
theorem offers_fewer (hg : l.greedy = true) {earlier : List Point} (hit : Iterated f s₀ s earlier)
    (hs₀ : s₀.pos ≤ input.size) :
    Offers p input d (l.after a) (Entry.Of a (l.after a) ids) 1 S
      (.failing (.ofLoop a .exited s₀ s earlier.length :: S))
      (earlier.take (earlier.length - l.min.toNat)) := by
  have hlen (e : Entry) : (e :: S).length ≤ d := by rw [List.length_cons]; omega
  induction hit with
  | start =>
    rw [List.take_nil]
    refine .none (.one (hlen _) ?_ (by show S.length ≤ d; omega))
    rw [h.step_retry _ (by decide) (by decide)]
    simp [Config.retryLoop, hg]
  | @next s t earlier hit ht ih =>
    have hstep := h.step_retry .exited (S := S) (by decide) (by decide) s₀ t
      (s :: earlier).length
    rw [List.length_cons] at hstep ⊢
    simp only [Config.retryLoop, hg, if_true] at hstep
    by_cases hmin : l.min.toNat < earlier.length + 1
    · rw [if_pos hmin] at hstep
      rw [show earlier.length + 1 - l.min.toNat = earlier.length - l.min.toNat + 1 by omega,
        List.take_succ_cons]
      refine .leaving ?_ ih
      rcases Nat.eq_zero_or_pos earlier.length with hzero | hpos
      · -- Nothing is left to replay: the loop is left at its start.
        cases hit with
        | start => exact .one (hlen _) hstep (hlen _)
        | next => cases hzero
      · rw [Nat.add_sub_cancel, if_neg (Nat.ne_of_gt hpos)] at hstep
        have hreplay := h.replay hk hd hit hs₀ hpos (Nat.le_refl _)
        rw [if_neg (Nat.lt_irrefl _)] at hreplay
        exact .more (hlen _) hstep hreplay
    · rw [if_neg hmin] at hstep
      rw [show earlier.length + 1 - l.min.toNat = 0 by omega, List.take_zero]
      exact .none (.one (hlen _) hstep (by show S.length ≤ d; omega))

/-- A greedy loop whose body finds nothing more offers the point it is at, and those before it. -/
theorem offers_last (hg : l.greedy = true) {earlier : List Point} (hit : Iterated f s₀ s earlier)
    (hs₀ : s₀.pos ≤ input.size) (hnone : (f s).head? = none) :
    Offers p input d (l.after a) (Entry.Of a (l.after a) ids) 1 S
      (.running (Loop.body a) s.pos s.log (.ofLoop a .iterating s₀ s earlier.length :: S))
      (([s].drop (l.min.toNat - earlier.length)).reverse ++
        earlier.take (earlier.length - l.min.toNat)) := by
  have hlen (e : Entry) : (e :: S).length ≤ d := by rw [List.length_cons]; omega
  have hback := h.iteration_none hnone (h.pos_le_size hit hs₀) hd
    (.ofLoop a .iterating s₀ s earlier.length)
  have hstep := h.step_retry .iterating (S := S) (by decide) (by decide) s₀ s
    earlier.length
  simp only [Config.retryLoop, hg, true_and] at hstep
  by_cases hmin : l.min.toNat ≤ earlier.length
  · rw [if_pos hmin] at hstep
    rw [Nat.sub_eq_zero_of_le hmin]
    exact .leaving (hback.trans (.one (hlen _) hstep (hlen _)))
      (h.offers_fewer hk hd hg hit hs₀)
  · rw [if_neg hmin] at hstep
    rw [List.drop_of_length_le (by rw [List.length_singleton]; omega),
      Nat.sub_eq_zero_of_le (Nat.le_of_not_le hmin), List.take_zero]
    exact .none (hback.trans (.one (hlen _) hstep (by show S.length ≤ d; omega)))

/-- A greedy loop in its first pass offers the points of the iterations still to come, then those
of the iterations that are over, as long as there are as many as it asks for. -/
theorem offers_greedy (hg : l.greedy = true) {earlier : List Point}
    (hit : Iterated f s₀ s earlier) (hs₀ : s₀.pos ≤ input.size) {n : Nat}
    (hleft : l.Left input n earlier.length s) (hmore : l.allowsMore earlier.length = true) :
    Offers p input d (l.after a) (Entry.Of a (l.after a) ids) 1 S
      (.running (Loop.body a) s.pos s.log (.ofLoop a .iterating s₀ s earlier.length :: S))
      (((iterates f n s).drop (l.min.toNat - earlier.length)).reverse ++
        earlier.take (earlier.length - l.min.toNat)) := by
  have hlen (e : Entry) : (e :: S).length ≤ d := by rw [List.length_cons]; omega
  have hpos := h.pos_le_size hit hs₀
  induction n generalizing s earlier with
  | zero =>
    have hend : (f s).head? = none := by
      rcases hleft.zero with hend | hmax
      · exact h.head?_eq_none hpos hend
      · rw [hmax] at hmore; cases hmore
    exact h.offers_last hk hd hg hit hs₀ hend
  | succ n ih =>
    cases ht : (f s).head? with
    | none => rw [iterates_of_none ht]; exact h.offers_last hk hd hg hit hs₀ ht
    | some t =>
      have hit' := hit.next ht
      have hleft' := hleft.succ (h.consumes _ _ (List.mem_of_mem_head? ht))
      have hne : t.pos ≠ s.pos := Nat.ne_of_gt (h.consumes _ _ (List.mem_of_mem_head? ht))
      rw [iterates_of_some ht, reverse_drop_cons]
      by_cases hagain : earlier.length + 1 < l.min.toNat ∨
          (t.pos < input.size ∧ l.allowsMore (earlier.length + 1) = true)
      · exact .steps
          (h.iteration_some hk ht hpos hd rfl
            (commit_again hne (hagain.imp_right (And.intro hg))) (hlen _))
          (ih hit' hleft' (hagain.elim h.allowsMore_of_lt And.right) (h.pos_le_size hit' hs₀))
      · -- The loop is left: no iteration follows the one that has led to `t`.
        have hleave : Config.commitIteration input t.pos t.log S l
            ⟨a, .iterating, s.pos, s.log, s₀.pos, s₀.log, earlier.length⟩ = _ :=
          commit_leave hne fun hagain' => hagain (hagain'.imp_right And.right)
        rw [not_or, Nat.not_lt] at hagain
        rw [h.iterates_last (h.pos_le_size hit' hs₀) hleft' hagain.2,
          Nat.sub_eq_zero_of_le hagain.1]
        exact .leaving (h.iteration_some hk ht hpos hd rfl hleave (hlen _))
          (h.offers_fewer hk hd hg hit' hs₀)

end

/-! ### Other loops -/

section

variable (h : LoopCode p input l a m w r ids f) (hk : l.keepsFrames = false)
  (hd : S.length + (1 + w) ≤ d)

include h hk hd

/-- A loop that is not greedy and has been left offers the points of one iteration more each
time. -/
theorem offers_more (hg : l.greedy = false) {n k : Nat} (hs : s.pos ≤ input.size)
    (hleft : l.Left input n k s) (hmin : l.min.toNat ≤ k) :
    Offers p input d (l.after a) (Entry.Of a (l.after a) ids) 1 S
      (.failing (.ofLoop a .exited s₀ s k :: S)) (iterates f n s).tail := by
  have hlen (e : Entry) : (e :: S).length ≤ d := by rw [List.length_cons]; omega
  have hS : S.length ≤ d := by omega
  have hstep (s : Point) (k : Nat) := h.step_retry .exited (S := S) (by decide)
    (by decide) s₀ s k
  simp only [Config.retryLoop, hg, Bool.false_eq_true, if_false] at hstep
  induction n generalizing s k with
  | zero =>
    have hend : ¬(l.allowsMore k = true ∧ s.pos < input.size) := fun hmore => by
      rcases hleft.zero with hend | hmax
      · omega
      · rw [hmax] at hmore; cases hmore.1
    have hfail := hstep s k
    rw [if_neg hend] at hfail
    exact .none (.one (hlen _) hfail hS)
  | succ n ih =>
    have hfail := hstep s k
    by_cases hmore : l.allowsMore k = true ∧ s.pos < input.size
    · rw [if_pos hmore] at hfail
      refine .step (hlen _) hfail ?_
      cases ht : (f s).head? with
      | none => rw [iterates_of_none ht]; exact .none (h.steps_last hg ht hs hd k)
      | some t =>
        have hmem := List.mem_of_mem_head? ht
        have hne : t.pos ≠ s.pos := Nat.ne_of_gt (h.consumes _ _ hmem)
        have hleave : ¬(k + 1 < l.min.toNat ∨ (l.greedy = true ∧ t.pos < input.size ∧
            l.allowsMore (k + 1) = true)) := by
          rw [hg]; simp; omega
        rw [iterates_of_some ht, List.tail_cons, iterates_eq_cons]
        exact .leaving (h.iteration_some hk ht hs hd rfl (commit_leave hne hleave) (hlen _))
          (ih (h.within _ _ hmem hs) (hleft.succ (h.consumes _ _ hmem)) (Nat.le_succ_of_le hmin))
    · rw [if_neg hmore] at hfail
      rw [h.iterates_last hs hleft fun hend => hmore hend.symm]
      exact .none (.one (hlen _) hfail hS)

/-- A loop that is not greedy makes the iterations that it must, and is left there. -/
theorem offers_needed (hg : l.greedy = false) {n k : Nat} (hs : s.pos ≤ input.size)
    (hleft : l.Left input n k s) (hmin : k < l.min.toNat) :
    Offers p input d (l.after a) (Entry.Of a (l.after a) ids) 1 S
      (.running (Loop.body a) s.pos s.log (.ofLoop a .iterating s₀ s k :: S))
      ((iterates f n s).drop (l.min.toNat - k)) := by
  have hlen (e : Entry) : (e :: S).length ≤ d := by rw [List.length_cons]; omega
  have hnone {s : Point} {n k : Nat} (hs : s.pos ≤ input.size) (hmin : k < l.min.toNat)
      (hnone : (f s).head? = none) :
      Offers p input d (l.after a) (Entry.Of a (l.after a) ids) 1 S
        (.running (Loop.body a) s.pos s.log (.ofLoop a .iterating s₀ s k :: S))
        ((iterates f n s).drop (l.min.toNat - k)) := by
    rw [iterates_of_none hnone, List.drop_of_length_le (by rw [List.length_singleton]; omega)]
    exact .none (h.steps_last hg hnone hs hd k)
  induction n generalizing s k with
  | zero =>
    rcases hleft.zero with hend | hmax
    · exact hnone hs hmin (h.head?_eq_none hs hend)
    · rw [h.allowsMore_of_lt hmin] at hmax
      cases hmax
  | succ n ih =>
    cases ht : (f s).head? with
    | none => exact hnone hs hmin ht
    | some t =>
      have hmem := List.mem_of_mem_head? ht
      have hne : t.pos ≠ s.pos := Nat.ne_of_gt (h.consumes _ _ hmem)
      have hleft' := hleft.succ (h.consumes _ _ hmem)
      rw [iterates_of_some ht, show l.min.toNat - k = l.min.toNat - (k + 1) + 1 by omega,
        List.drop_succ_cons]
      by_cases hagain : k + 1 < l.min.toNat
      · exact .steps
          (h.iteration_some hk ht hs hd rfl (commit_again hne (.inl hagain)) (hlen _))
          (ih (h.within _ _ hmem hs) hleft' hagain)
      · have hleave : ¬(k + 1 < l.min.toNat ∨ (l.greedy = true ∧ t.pos < input.size ∧
            l.allowsMore (k + 1) = true)) := by
          rw [hg]; simp; omega
        rw [Nat.sub_eq_zero_of_le (Nat.le_of_not_lt hagain), List.drop_zero, iterates_eq_cons]
        exact .leaving (h.iteration_some hk ht hs hd rfl (commit_leave hne hleave) (hlen _))
          (h.offers_more hk hd hg (h.within _ _ hmem hs) hleft' (Nat.le_of_not_lt hagain))

/-- **A loop that commits its iterations offers their points.** -/
theorem offers_committed (hs : s.pos ≤ input.size) {n : Nat} (hleft : l.Left input n 0 s) :
    Offers p input d (l.after a) (Entry.Of a (l.after a) ids) 1 S (.running a s.pos s.log S)
      (inOrder l.greedy ((iterates f n s).drop l.min.toNat)) := by
  have hlen (e : Entry) : (e :: S).length ≤ d := by rw [List.length_cons]; omega
  have hS : (Config.running a s.pos s.log S).stack.length ≤ d := by show S.length ≤ d; omega
  have hmore : l.allowsMore 0 = true := by simp [Loop.allowsMore, h.max_pos]
  have henter := h.step_enter (S := S) s
  simp only [Config.enterLoop, hk, h.singleByte, Bool.false_eq_true, if_false, Bool.not_false,
    if_true, Bool.not_eq_true'] at henter
  cases hg : l.greedy with
  | true =>
    rw [hg] at henter
    refine .step hS henter ?_
    have hoffers := h.offers_greedy hk hd hg .start hs hleft hmore
    rw [List.take_nil, List.append_nil] at hoffers
    exact hoffers
  | false =>
    rw [hg] at henter
    show Offers _ _ _ _ _ _ _ _ ((iterates f n s).drop l.min.toNat)
    by_cases hmin : l.min = 0
    · rw [if_pos ⟨rfl, hmin⟩] at henter
      rw [show l.min.toNat = 0 by rw [hmin]; rfl, List.drop_zero, iterates_eq_cons]
      exact .leaving (.one hS henter (hlen _))
        (h.offers_more hk hd hg hs hleft (by rw [hmin]; exact Nat.le_refl 0))
    · rw [if_neg (fun hand => hmin hand.2)] at henter
      refine .step hS henter ?_
      exact h.offers_needed hk hd hg hs hleft
        (Nat.pos_of_ne_zero fun hzero => hmin (UInt8.toNat_inj.1 hzero))

end

end LoopCode

end BoundedRegex
