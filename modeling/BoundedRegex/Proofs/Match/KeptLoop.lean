import BoundedRegex.Proofs.Match.LoopCode

/-!
# Loops that keep the frames of their iterations

Such a loop has a bound.  It pushes a frame before its first iteration and one after each iteration
that another may follow, on top of what the iterations have left, so that all that is inside an
iteration can be tried again.
-/

namespace BoundedRegex

variable {p : Program} {input : Array UInt8} {l : Loop} {a m w r d : Nat} {ids : List UInt8}
  {f : Point → List Point} {S : List Entry} {s : Point}

namespace LoopCode

/-- The phase of the frame after `k` iterations: there is something to try at it if as many are
enough. -/
def keptPhase (l : Loop) (k : Nat) : LoopPhase :=
  if k < l.min.toNat then .counter else .boundary

/-- Where a loop goes on after `k` iterations, if another may follow. -/
def keptTarget (l : Loop) (a k : Nat) : Nat :=
  if l.greedy = true ∨ k < l.min.toNat then Loop.body a else l.after a

/-- At the frame after an iteration there may be nothing to try. -/
theorem step_counter (s : Point) (k : Nat) :
    (Config.failing (.ofLoop a .counter s s k :: S)).step p input = .fail S := by
  simp [Config.step, Config.backtrack, Entry.ofLoop]

section

variable (h : LoopCode p input l a m w r ids f)

include h

/-- At the frame after an iteration a greedy loop is left, and any other iterates once more. -/
theorem step_boundary (s : Point) (k : Nat) :
    (Config.failing (.ofLoop a .boundary s s k :: S)).step p input =
      if l.greedy then .run (l.after a) s.pos s.log S
      else .run (Loop.body a) s.pos s.log (.ofLoop a .counter s s k :: S) := by
  simp [Config.step, Config.backtrack, Entry.ofLoop, h.fetch, Config.retryBoundary]

/-- After an iteration the loop pushes a frame, if another iteration may follow. -/
theorem step_keep (hk : l.keepsFrames = true) {F : List Entry}
    (hF : ∀ e ∈ F, e.Of (Loop.body a) m ids) (phase : LoopPhase) (t : Point) (k : Nat) :
    (Config.running m t.pos t.log (F ++ .ofLoop a phase s s k :: S)).step p input =
      if l.allowsMore (k + 1) then
        .run (keptTarget l a (k + 1)) t.pos t.log
          (.ofLoop a (keptPhase l (k + 1)) t t (k + 1) :: (F ++ .ofLoop a phase s s k :: S))
      else .run (l.after a) t.pos t.log (F ++ .ofLoop a phase s s k :: S) := by
  rw [Entry.ofLoop, h.step_end hF rfl, if_pos hk]
  simp [Config.keepIteration, keptTarget, keptPhase, Entry.ofLoop, Entry.entering]

/-- Given what the next iteration and all that follow it offer, the frame in front of it adds the
point at which the loop may be left, after them or before them. -/
theorem offers_round {r' k : Nat} {more : List Point} (hd : S.length + 1 ≤ d)
    (hmore : ∀ phase, Offers p input d (l.after a) (Entry.Of a (l.after a) ids) r'
      (.ofLoop a phase s s k :: S)
      (.running (Loop.body a) s.pos s.log (.ofLoop a phase s s k :: S)) more) :
    Offers p input d (l.after a) (Entry.Of a (l.after a) ids) (r' + 1) S
      (.running (keptTarget l a k) s.pos s.log (.ofLoop a (keptPhase l k) s s k :: S))
      (if l.greedy then more ++ (if l.min.toNat ≤ k then [s] else [])
      else (if l.min.toNat ≤ k then [s] else []) ++ more) := by
  have hlen (e : Entry) : (e :: S).length ≤ d := by rw [List.length_cons]; omega
  have hS : S.length ≤ d := by omega
  have hof (phase : LoopPhase) :
      ∀ e ∈ [Entry.ofLoop a phase s s k], e.Of a (l.after a) ids :=
    List.forall_mem_singleton.2 (Entry.of_ofLoop (l.lt_after a) ..)
  -- The iteration, and then nothing, as its frame has nothing left to try.
  have hlast : Offers p input d (l.after a) (Entry.Of a (l.after a) ids) (r' + 1) S
      (.running (Loop.body a) s.pos s.log (.ofLoop a .counter s s k :: S)) more := by
    rw [← List.append_nil more]
    exact Offers.append (F := [.ofLoop a .counter s s k]) (hmore .counter) (hof _)
      (by rw [List.length_singleton]; omega) (fun _ => rfl)
      (.none (.one (hlen _) (step_counter s k) hS))
  by_cases hmin : k < l.min.toNat
  · rw [keptTarget, if_pos (Or.inr hmin), keptPhase, if_pos hmin, if_neg (Nat.not_le.2 hmin),
      List.append_nil, List.nil_append, ite_self]
    exact hlast
  · rw [keptPhase, if_neg hmin, if_pos (Nat.le_of_not_lt hmin), keptTarget]
    have hback := h.step_boundary (S := S) s k
    cases hg : l.greedy with
    | true =>
      rw [hg, if_pos rfl] at hback
      rw [if_pos (Or.inl rfl), if_pos rfl]
      exact Offers.append (F := [.ofLoop a .boundary s s k]) (hmore .boundary) (hof _)
        (by rw [List.length_singleton]; omega) (nomatch ·) (.step (hlen _) hback (.exit s hS))
    | false =>
      rw [hg, if_neg Bool.false_ne_true] at hback
      rw [if_neg (fun hor => hor.elim Bool.false_ne_true hmin), if_neg Bool.false_ne_true,
        List.singleton_append]
      exact .some (F := [.ofLoop a .boundary s s k]) (.refl (hlen _)) (hof _)
        (Nat.succ_le_succ (Nat.zero_le _)) (nomatch ·) (.step (hlen _) hback hlast)

variable (hk : l.keepsFrames = true) (hmax : l.max ≠ unboundedCount)

include hk hmax

/-- What a loop offers once it has pushed the frame after `k` iterations, when it may make `n + 1`
more. -/
theorem offers_counted {n k : Nat} (hn : k + (n + 1) = l.max.toNat) (hs : s.pos ≤ input.size)
    (hd : S.length + ((r + 1) * n + (1 + w)) ≤ d) :
    Offers p input d (l.after a) (Entry.Of a (l.after a) ids) ((r + 1) * (n + 1)) S
      (.running (keptTarget l a k) s.pos s.log (.ofLoop a (keptPhase l k) s s k :: S))
      (counted f l.min.toNat l.greedy (n + 1) k s) := by
  have hbody : ∀ e : Entry, e.Of (Loop.body a) m ids → e.Of a (l.after a) ids := fun e he =>
    he.mono (Nat.le_of_lt (Loop.lt_body a)) (by rw [h.after_eq]; exact Nat.le_add_right m 4)
      (List.Subset.refl ids)
  have hlen (e : Entry) : (e :: S).length + w ≤ d := by rw [List.length_cons]; omega
  induction n generalizing k s S with
  | zero =>
    have hdone : l.allowsMore (k + 1) = false := by
      simp only [Loop.allowsMore, hmax, decide_false, Bool.false_or, decide_eq_false_iff_not]
      omega
    have hmin : l.min.toNat ≤ k + 1 := by
      have := h.min_le_max.resolve_left hmax
      omega
    rw [Nat.zero_add, Nat.mul_one]
    refine h.offers_round (by omega) ?_
    intro phase
    refine Offers.bind (q := 0) (h.body d _ s hs (hlen _)) hbody (Nat.le_refl _)
      fun F hF hr hlenF t ht => ?_
    have hstep := h.step_keep (S := S) (s := s) hk hF phase t k
    rw [hdone, if_neg Bool.false_ne_true] at hstep
    rw [counted, if_pos hmin]
    exact .step hlenF hstep (.exit t hlenF)
  | succ n ih =>
    have hmore : l.allowsMore (k + 1) = true := by
      have : k + 1 < l.max.toNat := by omega
      simp [Loop.allowsMore, this]
    have hmul : (r + 1) * (n + 1) = (r + 1) * n + (r + 1) := Nat.mul_succ ..
    have hmul' : (r + 1) * (n + 1 + 1) = (r + (r + 1) * (n + 1)) + 1 := by
      rw [Nat.mul_succ]; omega
    rw [hmul']
    refine h.offers_round (by omega) ?_
    intro phase
    refine Offers.bind (h.body d _ s hs (hlen _)) hbody (Nat.le_refl _)
      fun F hF hr hlenF t ht => ?_
    have hstep := h.step_keep (S := S) (s := s) hk hF phase t k
    rw [hmore, if_pos rfl] at hstep
    have hdepth : (F ++ Entry.ofLoop a phase s s k :: S).length ≤ r + 1 + S.length := by
      rw [List.length_append, List.length_cons]; omega
    refine .step hlenF hstep (ih (by omega) (h.within _ _ ht hs) (by omega) fun e => ?_)
    rw [List.length_cons]
    omega

/-- **A loop that keeps the frames of its iterations offers all that they can come to.** -/
theorem offers_kept (hs : s.pos ≤ input.size)
    (hd : S.length + ((r + 1) * (l.max.toNat - 1) + (1 + w)) ≤ d) :
    Offers p input d (l.after a) (Entry.Of a (l.after a) ids) ((r + 1) * l.max.toNat) S
      (.running a s.pos s.log S) (counted f l.min.toNat l.greedy l.max.toNat 0 s) := by
  obtain ⟨n, hn⟩ : ∃ n, l.max.toNat = n + 1 := ⟨l.max.toNat - 1, by have := h.max_pos; omega⟩
  have hS : (Config.running a s.pos s.log S).stack.length ≤ d := by show S.length ≤ d; omega
  have henter := h.step_enter (S := S) s
  rw [Config.enterLoop, if_pos hk] at henter
  rw [hn, Nat.add_sub_cancel] at hd
  rw [hn]
  refine .step hS (henter.trans ?_) (h.offers_counted hk hmax (by omega) hs hd)
  by_cases hzero : l.min = 0
  · simp [keptTarget, keptPhase, Entry.ofLoop, Entry.entering, hzero]
  · have hpos : 0 < l.min.toNat := Nat.pos_of_ne_zero fun h => hzero (UInt8.toNat_inj.1 h)
    have hpos' : 0 < l.min := UInt8.lt_iff_toNat_lt.2 hpos
    simp [keptTarget, keptPhase, Entry.ofLoop, Entry.entering, hzero, hpos, hpos']

end

end LoopCode

end BoundedRegex
