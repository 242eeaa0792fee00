import BoundedRegex.Proofs.Match.Offers

/-!
# The code of a loop

`LoopCode` is what the machine has to find at a loop for it to repeat its body: the loop, the
body, of which no more is known than the points that it offers, and the instruction that goes back.
-/

namespace BoundedRegex

/-- The code of a loop at `a` whose body, from the address behind the loop up to `m`, offers the
points `f s` from a point `s`, with at most `r` frames left and `w` alive.  The body consumes. -/
structure LoopCode (p : Program) (input : Array UInt8) (l : Loop) (a m w r : Nat)
    (ids : List UInt8) (f : Point → List Point) : Prop where
  fetch : p.fetch? a = some (.loop l, 7)
  after_eq : l.after a = m + 4
  fetch_end : ∃ o, p.fetch? m = some (.loopEnd o, 4) ∧ offsetTarget m o = a
  singleByte : l.singleByte = false
  body : ∀ d S s, s.pos ≤ input.size → S.length + w ≤ d →
    Offers p input d m (Entry.Of (Loop.body a) m ids) r S
      (.running (Loop.body a) s.pos s.log S) (f s)
  consumes : ∀ s, ∀ t ∈ f s, s.pos < t.pos
  within : ∀ s, ∀ t ∈ f s, s.pos ≤ input.size → t.pos ≤ input.size
  max_pos : 0 < l.max.toNat
  min_le_max : l.max = unboundedCount ∨ l.min.toNat ≤ l.max.toNat

/-- No more than `n` iterations may follow `k` finished ones that end at `s`: the bound leaves so
many, or, without a bound, the input. -/
def Loop.Left (input : Array UInt8) (l : Loop) (n k : Nat) (s : Point) : Prop :=
  if l.max = unboundedCount then input.size ≤ n + s.pos else k + n = l.max.toNat

/-- The frame of the loop at `a`, entered at `s₀`, with `k` iterations finished at `s`. -/
def Entry.ofLoop (a : Nat) (phase : LoopPhase) (s₀ s : Point) (k : Nat) : Entry :=
  .loop ⟨a, phase, s.pos, s.log, s₀.pos, s₀.log, k⟩

variable {p : Program} {input : Array UInt8} {l : Loop} {a m w r d : Nat} {ids : List UInt8}
  {f : Point → List Point} {S : List Entry}

theorem Entry.of_ofLoop {b : Nat} (h : a < b) (phase : LoopPhase) (s₀ s : Point) (k : Nat) :
    (Entry.ofLoop a phase s₀ s k).Of a b ids :=
  ⟨Nat.le_refl a, h⟩

/-- A loop is left at a point, and its frame has the rest to offer. -/
theorem Offers.leaving {c : Config} {s₀ s t : Point} {k : Nat} {rest : List Point}
    (h : Steps p input d c
      (.running (l.after a) s.pos s.log (.ofLoop a .exited s₀ t k :: S)))
    (hrest : Offers p input d (l.after a) (Entry.Of a (l.after a) ids) 1 S
      (.failing (.ofLoop a .exited s₀ t k :: S)) rest) :
    Offers p input d (l.after a) (Entry.Of a (l.after a) ids) 1 S c (s :: rest) :=
  .some (F := [.ofLoop a .exited s₀ t k]) h
    (List.forall_mem_singleton.2 (Entry.of_ofLoop (l.lt_after a) ..)) (Nat.le_refl 1)
    (absurd · (List.cons_ne_nil _ _)) hrest

namespace Loop.Left

variable {n k : Nat} {s t : Point}

/-- An iteration that consumes leaves one less. -/
theorem succ (h : l.Left input (n + 1) k s) (hlt : s.pos < t.pos) : l.Left input n (k + 1) t := by
  unfold Left at h ⊢
  split at h
  · rw [if_pos ‹_›]; omega
  · rw [if_neg ‹_›]; omega

/-- Where no iterations are left, the bound is reached, or the end of the input. -/
theorem zero (h : l.Left input 0 k s) : input.size ≤ s.pos ∨ l.allowsMore k = false := by
  unfold Left at h
  split at h
  · exact Or.inl (by omega)
  · next hb =>
    refine Or.inr ?_
    simp only [Loop.allowsMore, hb, decide_false, Bool.false_or, decide_eq_false_iff_not]
    omega

/-- Where the bound is reached, no iterations are left. -/
theorem eq_zero (h : l.Left input n k s) (hmore : l.allowsMore k = false) : n = 0 := by
  simp only [Loop.allowsMore, Bool.or_eq_false_iff, decide_eq_false_iff_not] at hmore
  rw [Left, if_neg hmore.1] at h
  omega

end Loop.Left

namespace LoopCode

/-- Frames that the body has left hide no frame of the loop. -/
theorem dropWhile_isOfLoop {F : List Entry} (hF : ∀ e ∈ F, e.Of (Loop.body a) m ids)
    {g : LoopEntry} (hg : g.ip = a) :
    (F ++ .loop g :: S).dropWhile (fun e => !e.isOfLoop a) = .loop g :: S := by
  have hof : (Entry.loop g).isOfLoop a = true := decide_eq_true hg
  rw [List.dropWhile_append_of_pos fun e he => ?_, List.dropWhile_cons_of_neg]
  · rw [hof]; decide
  · rw [(hF e he).not_isOfLoop (Loop.lt_body a)]; rfl

/-- At the end of an iteration the machine finds the frame of the loop. -/
theorem step_end (h : LoopCode p input l a m w r ids f) {F : List Entry}
    (hF : ∀ e ∈ F, e.Of (Loop.body a) m ids) {g : LoopEntry} (hg : g.ip = a) (s : Point) :
    (Config.running m s.pos s.log (F ++ .loop g :: S)).step p input =
      if l.keepsFrames then Config.keepIteration s.pos s.log (F ++ .loop g :: S) l g
      else Config.commitIteration input s.pos s.log S l g := by
  obtain ⟨o, hend, ho⟩ := h.fetch_end
  simp only [Config.step, Config.execute, hend, ho, Config.endIteration, dropWhile_isOfLoop hF hg,
    h.fetch]

/-- The machine executes the loop. -/
theorem step_enter (h : LoopCode p input l a m w r ids f) (s : Point) :
    (Config.running a s.pos s.log S).step p input = Config.enterLoop p input a s.pos s.log S l := by
  simp only [Config.step, Config.execute, h.fetch]

end LoopCode

end BoundedRegex
