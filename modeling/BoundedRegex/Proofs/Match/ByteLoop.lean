import BoundedRegex.Proofs.Code.Layout
import BoundedRegex.Proofs.Match.LoopCode

/-!
# Single-byte loops

Such a loop runs as a whole, without executing its body: the offset after `n` iterations is the
start plus `n`.  It needs a frame only if another number of iterations may be tried later.  Of its
body no more counts than which bytes that accepts, so that it may be any instruction that consumes
one (`ByteLoopCode.offers`), also one that no leaf of an expression stands for.
-/

namespace BoundedRegex

variable {p : Program} {input : Array UInt8} {l : Loop} {i : Instr} {a d : Nat}
  {ids : List UInt8} {S : List Entry} {s : Point}

/-! ### Runs of accepted bytes -/

/-- The point `j` bytes further on. -/
def Point.advanced (s : Point) (j : Nat) : Point :=
  ⟨s.pos + j, s.log⟩

theorem map_advanced_succ (s : Point) (n : Nat) :
    (List.range (n + 1)).map s.advanced = s :: (List.range n).map (s.advanced 1).advanced := by
  rw [List.range_succ_eq_map, List.map_cons, List.map_map]
  refine congrArg (s :: ·) (List.map_congr_left ?_)
  intro j _
  simp only [Function.comp, Point.advanced, Point.mk.injEq, and_true]
  omega

/-- A run goes on behind each byte that is accepted. -/
theorem runEnd_succ (input : Array UInt8) (i : Instr) (pos limit : Nat) :
    runEnd i input pos (limit + 1) =
      if input[pos]?.any i.accepts then runEnd i input (pos + 1) limit else pos := by
  rw [runEnd]
  cases input[pos]? <;> rfl

theorem le_runEnd (input : Array UInt8) (i : Instr) (pos limit : Nat) :
    pos ≤ runEnd i input pos limit := by
  induction limit generalizing pos with
  | zero => exact Nat.le_refl _
  | succ limit ih =>
    rw [runEnd_succ]
    split
    · exact Nat.le_of_succ_le (ih (pos + 1))
    · exact Nat.le_refl _

theorem runEnd_le (input : Array UInt8) (i : Instr) (pos limit : Nat) :
    runEnd i input pos limit ≤ pos + limit := by
  induction limit generalizing pos with
  | zero => exact Nat.le_refl _
  | succ limit ih =>
    rw [runEnd_succ]
    have := ih (pos + 1)
    split <;> omega

/-- The end of the input ends a run. -/
theorem runEnd_le_size (i : Instr) {pos : Nat} (h : pos ≤ input.size) (limit : Nat) :
    runEnd i input pos limit ≤ input.size := by
  induction limit generalizing pos with
  | zero => exact h
  | succ limit ih =>
    rw [runEnd_succ]
    split
    · next hany =>
      obtain ⟨b, hb, -⟩ := (Option.any_eq_true _ _).1 hany
      exact ih (Array.getElem?_eq_some_iff.1 hb).1
    · exact h

theorem runEnd_of_size_le (i : Instr) {pos limit : Nat} (h : input.size ≤ pos + limit) :
    runEnd i input pos limit = runEnd i input pos (input.size - pos) := by
  induction limit generalizing pos with
  | zero => rw [show input.size - pos = 0 by omega]
  | succ limit ih =>
    rcases Nat.lt_or_ge pos input.size with hlt | hge
    · rw [show input.size - pos = input.size - (pos + 1) + 1 by omega, runEnd_succ, runEnd_succ,
        ih (by omega)]
    · rw [show input.size - pos = 0 by omega, runEnd_succ, Array.getElem?_eq_none hge]
      rfl

/-- A run that does not reach its limit does not go on with another limit. -/
theorem runEnd_le_of_lt (i : Instr) {pos limit : Nat} (n : Nat)
    (h : runEnd i input pos limit < pos + limit) :
    runEnd i input pos n ≤ runEnd i input pos limit := by
  induction limit generalizing pos n with
  | zero => exact absurd h (Nat.lt_irrefl _)
  | succ limit ih =>
    cases n with
    | zero => exact le_runEnd ..
    | succ n =>
      rw [runEnd_succ] at h ⊢
      rw [runEnd_succ]
      split
      · rw [if_pos ‹_›] at h
        exact ih n (by omega)
      · exact Nat.le_refl _

/-- The first byte of a run that is not empty is accepted, and the others make up a run. -/
theorem runEnd_succ_eq (i : Instr) {pos limit : Nat}
    (h : runEnd i input pos (limit + 1) = pos + (limit + 1)) :
    input[pos]?.any i.accepts = true ∧ runEnd i input (pos + 1) limit = pos + 1 + limit := by
  rw [runEnd_succ] at h
  split at h
  · exact ⟨‹_›, by omega⟩
  · omega

/-- The point behind the byte at a point, if an instruction accepts the byte. -/
def Instr.taken (i : Instr) (input : Array UInt8) (s : Point) : List Point :=
  if input[s.pos]?.any i.accepts then [s.advanced 1] else []

theorem results_leaf (input : Array UInt8) (leaf : Leaf) :
    (Expr.leaf leaf).results input = leaf.instr.taken input := by
  funext s
  rw [Expr.results, Instr.taken, show leaf.instr.accepts = leaf.accepts from
    funext leaf.accepts_instr]
  cases input[s.pos]? with
  | none => rfl
  | some b => rfl

theorem head?_taken (input : Array UInt8) (i : Instr) (s : Point) :
    (i.taken input s).head? =
      if input[s.pos]?.any i.accepts then some (s.advanced 1) else none := by
  rw [Instr.taken]
  split <;> rfl

/-- Iterations of one byte each are the bytes of a run. -/
theorem iterates_taken (i : Instr) (n : Nat) (s : Point) :
    iterates (i.taken input) n s =
      (List.range (runEnd i input s.pos n - s.pos + 1)).map s.advanced := by
  induction n generalizing s with
  | zero => simp [iterates, runEnd, Point.advanced, List.range_succ]
  | succ n ih =>
    have hhead := head?_taken input i s
    rw [runEnd_succ]
    by_cases hany : input[s.pos]?.any i.accepts = true
    · have hle := le_runEnd input i (s.pos + 1) n
      rw [iterates_of_some (hhead.trans (if_pos hany)), ih, if_pos hany,
        show runEnd i input (s.pos + 1) n - s.pos =
          runEnd i input (s.advanced 1).pos n - (s.advanced 1).pos + 1 by
          simp only [Point.advanced]; omega,
        map_advanced_succ s]
    · rw [iterates_of_none (hhead.trans (if_neg hany)), if_neg hany]
      simp [Point.advanced, List.range_succ]

/-- Behind a run, the iterations go on from where the run ends. -/
theorem drop_iterates_taken (i : Instr) {m : Nat} (n : Nat) {s : Point}
    (h : runEnd i input s.pos m = s.pos + m) :
    (iterates (i.taken input) (n + m) s).drop m = iterates (i.taken input) n (s.advanced m) := by
  induction m generalizing s with
  | zero => rfl
  | succ m ih =>
    obtain ⟨hany, hrest⟩ := runEnd_succ_eq i h
    rw [← Nat.add_assoc, iterates_of_some ((head?_taken input i s).trans (if_pos hany)),
      List.drop_succ_cons, ih (s := s.advanced 1) hrest]
    simp only [Point.advanced, Nat.add_assoc, Nat.add_comm 1 m]

/-! ### The machine -/

/-- The code of a loop at `a` around an instruction that consumes one byte. -/
structure ByteLoopCode (p : Program) (l : Loop) (a : Nat) (i : Instr) : Prop where
  fetch : p.fetch? a = some (.loop l, 7)
  fetch_body : ∃ n, p.fetch? (Loop.body a) = some (i, n)
  singleByte : l.singleByte = true
  keepsFrames : l.keepsFrames = false
  min_le_max : l.max = unboundedCount ∨ l.min.toNat ≤ l.max.toNat

namespace ByteLoopCode

variable (h : ByteLoopCode p l a i)

include h

theorem step_enter (input : Array UInt8) (s : Point) :
    (Config.running a s.pos s.log S).step p input =
      Config.runByteLoop input a s.pos s.log S l i := by
  obtain ⟨n, hbody⟩ := h.fetch_body
  simp [Config.step, Config.execute, h.fetch, Config.enterLoop, h.keepsFrames, h.singleByte, hbody]

theorem step_retry (input : Array UInt8) (s : Point) (k : Nat) :
    (Config.failing (.ofLoop a .exited s s k :: S)).step p input =
      Config.retryByteLoop p input S l ⟨a, .exited, s.pos, s.log, s.pos, s.log, k⟩ := by
  simp [Config.step, Config.backtrack, Entry.ofLoop, h.fetch, h.singleByte]

/-- A greedy loop that has been left with `k` bytes offers those with fewer. -/
theorem offers_fewer (hg : l.greedy = true) (hd : S.length + 1 ≤ d) {k : Nat}
    (hk : l.min.toNat < k) :
    Offers p input d (l.after a) (Entry.Of a (l.after a) ids) 1 S
      (.failing (.ofLoop a .exited s s k :: S))
      (((List.range k).drop l.min.toNat).reverse.map s.advanced) := by
  have hlen (e : Entry) : (e :: S).length ≤ d := by rw [List.length_cons]; omega
  induction k with
  | zero => exact absurd hk (Nat.not_lt_zero _)
  | succ k ih =>
    have hback := h.step_retry (S := S) input s (k + 1)
    simp only [Config.retryByteLoop, hg, if_true, Nat.add_sub_cancel] at hback
    rw [List.range_succ, List.drop_append_of_le_length (by rw [List.length_range]; omega),
      List.reverse_append, List.reverse_singleton, List.singleton_append, List.map_cons]
    by_cases hmin : k = l.min.toNat
    · -- The last one: the frame goes.
      rw [if_pos hmin] at hback
      rw [hmin, List.drop_of_length_le (Nat.le_of_eq List.length_range), List.reverse_nil,
        List.map_nil, ← hmin]
      exact .step (hlen _) hback (.exit (s.advanced k) (Nat.le_of_succ_le hd))
    · rw [if_neg hmin] at hback
      exact .leaving (.one (hlen _) hback (hlen _))
        (ih (by omega))

/-- To iterate once more, a loop that is not greedy needs a byte that its body accepts. -/
theorem step_more (input : Array UInt8) (hg : l.greedy = false) (s : Point) (k : Nat) :
    (Config.failing (.ofLoop a .exited s s k :: S)).step p input =
      if l.allowsMore k ∧ input[(s.advanced k).pos]?.any i.accepts then
        .run (l.after a) (s.advanced (k + 1)).pos (s.advanced (k + 1)).log
          (.ofLoop a .exited s s (k + 1) :: S)
      else .fail S := by
  obtain ⟨size, hbody⟩ := h.fetch_body
  rw [h.step_retry, Config.retryByteLoop, hg, if_neg Bool.false_ne_true]
  simp only [hbody]
  show _ = if l.allowsMore k ∧ input[s.pos + k]?.any i.accepts then _ else _
  cases input[s.pos + k]? with
  | none => simp
  | some b => simp [Point.advanced, Entry.ofLoop]

/-- A loop that is not greedy and has been left offers one byte more each time. -/
theorem offers_more (hg : l.greedy = false) (hd : S.length + 1 ≤ d) {n k : Nat}
    (hleft : l.Left input n k (s.advanced k)) :
    Offers p input d (l.after a) (Entry.Of a (l.after a) ids) 1 S
      (.failing (.ofLoop a .exited s s k :: S))
      (iterates (i.taken input) n (s.advanced k)).tail := by
  have hlen (e : Entry) : (e :: S).length ≤ d := by rw [List.length_cons]; omega
  have hS : S.length ≤ d := Nat.le_of_succ_le hd
  induction n generalizing k with
  | zero =>
    have hstep := h.step_more (S := S) input hg s k
    rw [if_neg] at hstep
    · exact .none (.one (hlen _) hstep hS)
    · rintro ⟨hmore, hany⟩
      rcases hleft.zero with hend | hmax
      · rw [Array.getElem?_eq_none hend] at hany; cases hany
      · rw [hmax] at hmore; cases hmore
  | succ n ih =>
    have hstep := h.step_more (S := S) input hg s k
    have hhead := head?_taken input i (s.advanced k)
    by_cases hany : input[(s.advanced k).pos]?.any i.accepts
    · rw [if_pos hany] at hhead
      by_cases hmore : l.allowsMore k
      · have hleft' : l.Left input n (k + 1) (s.advanced (k + 1)) :=
          hleft.succ (Nat.lt_succ_self (s.pos + k))
        rw [if_pos ⟨hmore, hany⟩] at hstep
        rw [iterates_of_some hhead, List.tail_cons, iterates_eq_cons]
        exact .leaving (.one (hlen _) hstep (hlen _))
          (ih hleft')
      · exact absurd (hleft.eq_zero (eq_false_of_ne_true hmore)) (Nat.succ_ne_zero n)
    · rw [if_neg hany] at hhead
      rw [if_neg (fun hand => hany hand.2)] at hstep
      rw [iterates_of_none hhead]
      exact .none (.one (hlen _) hstep hS)

/-- A greedy loop takes all the bytes that it can, and then offers those with fewer. -/
theorem offers_greedy (hg : l.greedy = true) (hd : S.length + 1 ≤ d) {n : Nat}
    (hleft : l.Left input n 0 s) :
    Offers p input d (l.after a) (Entry.Of a (l.after a) ids) 1 S (.running a s.pos s.log S)
      ((iterates (i.taken input) n s).drop l.min.toNat).reverse := by
  have hS : S.length ≤ d := Nat.le_of_succ_le hd
  have henter := h.step_enter (S := S) input s
  have hlimit : runEnd i input s.pos
      (if l.max = unboundedCount then input.size - s.pos else l.max.toNat) =
      runEnd i input s.pos n := by
    unfold Loop.Left at hleft
    split at hleft
    · rw [if_pos ‹_›, runEnd_of_size_le i (by omega : input.size ≤ s.pos + n)]
    · rw [if_neg ‹_›, ← hleft, Nat.zero_add]
  rw [iterates_taken, ← List.map_drop, ← List.map_reverse]
  simp only [Config.runByteLoop, hg, Bool.not_true, Bool.false_eq_true, if_false, if_true,
    hlimit, decide_eq_true_eq] at henter
  generalize hcount : runEnd i input s.pos n - s.pos = count at henter ⊢
  rcases Nat.lt_trichotomy count l.min.toNat with hlt | heq | hgt
  · rw [if_pos hlt] at henter
    rw [List.drop_of_length_le (by rw [List.length_range]; exact hlt)]
    exact .none (.one hS henter hS)
  · rw [if_neg (by omega), if_neg (by omega)] at henter
    rw [List.range_succ, ← heq, List.drop_append_of_le_length (Nat.le_of_eq List.length_range.symm),
      List.drop_of_length_le (Nat.le_of_eq List.length_range)]
    exact .step hS henter (.exit (s.advanced count) hS)
  · rw [if_neg (by omega), if_pos hgt] at henter
    rw [List.range_succ, List.drop_append_of_le_length (by rw [List.length_range]; omega),
      List.reverse_append, List.reverse_singleton, List.singleton_append, List.map_cons]
    exact .leaving (.one hS henter hd)
      (h.offers_fewer hg hd hgt)

/-- The bounds, or the input, leave room for the bytes that the loop must have and has found. -/
theorem min_le_of_left {n : Nat} (hleft : l.Left input n 0 s)
    (hrun : runEnd i input s.pos l.min.toNat = s.pos + l.min.toNat) :
    l.min.toNat ≤ n := by
  unfold Loop.Left at hleft
  split at hleft
  · rcases Nat.lt_or_ge n l.min.toNat with hlt | hge
    · rw [runEnd_of_size_le i (by omega)] at hrun
      have := runEnd_le input i s.pos (input.size - s.pos)
      omega
    · exact hge
  · have := h.min_le_max.resolve_left ‹_›
    omega

/-- Any other loop takes the bytes that it must, and then offers those with more. -/
theorem offers_lazy (hg : l.greedy = false) (hd : S.length + 1 ≤ d) {n : Nat}
    (hleft : l.Left input n 0 s) :
    Offers p input d (l.after a) (Entry.Of a (l.after a) ids) 1 S (.running a s.pos s.log S)
      ((iterates (i.taken input) n s).drop l.min.toNat) := by
  have hS : S.length ≤ d := Nat.le_of_succ_le hd
  have henter := h.step_enter (S := S) input s
  simp only [Config.runByteLoop, hg, Bool.not_false, if_true, Bool.false_eq_true, if_false]
    at henter
  have hle := le_runEnd input i s.pos l.min.toNat
  by_cases hlt : runEnd i input s.pos l.min.toNat - s.pos < l.min.toNat
  · have hend : runEnd i input s.pos l.min.toNat < s.pos + l.min.toNat := by omega
    have hshort := runEnd_le_of_lt i n hend
    rw [if_pos hlt] at henter
    rw [List.drop_of_length_le (by rw [iterates_taken, List.length_map, List.length_range]; omega)]
    exact .none (.one hS henter hS)
  · have hrun : runEnd i input s.pos l.min.toNat = s.pos + l.min.toNat :=
      Nat.le_antisymm (runEnd_le ..) (by omega)
    rw [hrun, Nat.add_sub_cancel_left, if_neg (Nat.lt_irrefl _)] at henter
    obtain ⟨k, rfl⟩ : ∃ k, n = k + l.min.toNat :=
      ⟨n - l.min.toNat, by have := h.min_le_of_left hleft hrun; omega⟩
    have hleft' : l.Left input k l.min.toNat (s.advanced l.min.toNat) := by
      unfold Loop.Left at hleft ⊢
      simp only [Point.advanced]
      split at hleft
      · rw [if_pos ‹_›]; omega
      · rw [if_neg ‹_›]; omega
    rw [drop_iterates_taken i k hrun, iterates_eq_cons]
    by_cases hmore : l.allowsMore l.min.toNat ∧ l.min.toNat < input.size - s.pos
    · rw [if_pos (by simpa using hmore)] at henter
      exact .leaving (.one hS henter hd)
        (h.offers_more hg hd hleft')
    · rw [if_neg (by simpa using hmore)] at henter
      have hlast : (iterates (i.taken input) k
          (s.advanced l.min.toNat)).tail = [] := by
        rw [Decidable.not_and_iff_or_not, Nat.not_lt] at hmore
        rcases hmore with hmax | hend
        · rw [hleft'.eq_zero (eq_false_of_ne_true hmax)]; rfl
        · have hnone : input[(s.advanced l.min.toNat).pos]? = none :=
            Array.getElem?_eq_none (by simp only [Point.advanced]; omega)
          have hhead := head?_taken input i (s.advanced l.min.toNat)
          rw [hnone] at hhead
          rw [iterates_of_none hhead]
          rfl
      rw [hlast]
      exact .step hS henter (.exit (s.advanced l.min.toNat) hS)

/-- **A single-byte loop offers the points of its iterations.** -/
theorem offers (hd : S.length + 1 ≤ d) {n : Nat} (hleft : l.Left input n 0 s) :
    Offers p input d (l.after a) (Entry.Of a (l.after a) ids) 1 S (.running a s.pos s.log S)
      (inOrder l.greedy ((iterates (i.taken input) n s).drop l.min.toNat)) := by
  cases hg : l.greedy with
  | true => exact h.offers_greedy hg hd hleft
  | false => exact h.offers_lazy hg hd hleft

end ByteLoopCode

end BoundedRegex
