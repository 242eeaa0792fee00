import BoundedRegex.Proofs.Match.ByteLoop
import BoundedRegex.Proofs.Match.CommittedLoop
import BoundedRegex.Proofs.Match.KeptLoop

/-!
# The code of an expression offers its results

`Expr.offers_results` puts the pieces together: where a program holds the code of an expression,
the machine, started at the code, offers the results of the expression, in order, within the
frames that the expression is said to need.
-/

namespace BoundedRegex

variable {p : Program} {input : Array UInt8} {a b d : Nat} {S : List Entry} {s : Point}

/-- An instruction that consumes one byte goes on behind it if it accepts the byte. -/
theorem Config.execute_singleByte (input : Array UInt8) {i : Instr} {n : Nat}
    (hi : i.isSingleByte = true) (hf : p.fetch? a = some (i, n)) (s : Point) :
    (Config.running a s.pos s.log S).step p input =
      if input[s.pos]?.any i.accepts then .run (a + n) (s.pos + 1) s.log S else .fail S := by
  cases i <;> cases hi <;> simp only [Config.step, Config.execute, hf] <;>
    cases input[s.pos]? <;> rfl

/-- An anchor goes on where it holds. -/
theorem Config.execute_anchor (input : Array UInt8) {x : Anchor} {n : Nat}
    (hf : p.fetch? a = some (x.instr, n)) (s : Point) :
    (Config.running a s.pos s.log S).step p input =
      if x.holds input s.pos then .run (a + n) s.pos s.log S else .fail S := by
  cases x <;> simp [Config.step, Config.execute, hf, Anchor.instr, Anchor.holds]

/-- A capture closes with the topmost frame that opened it, which goes if nothing lies on it. -/
theorem Config.execute_captureEnd {index : UInt8} {F : List Entry} {start : Nat}
    (hf : p.fetch? a = some (.captureEnd index, 3)) (hF : ∀ e ∈ F, e.opens index = false)
    (s : Point) :
    (Config.running a s.pos s.log (F ++ .capture index start :: S)).step p input =
      .run (a + 3) s.pos (s.log ++ [⟨index, start, s.pos⟩])
        (if F.isEmpty then S else F ++ .capture index start :: S) := by
  have hself : (Entry.capture index start).opens index = true := decide_eq_true rfl
  have hfind : (F ++ Entry.capture index start :: S).find? (Entry.opens index) =
      some (.capture index start) := by
    rw [List.find?_append, List.find?_eq_none.2 fun e he => by rw [hF e he]; decide,
      List.find?_cons_of_pos hself]
    rfl
  simp only [Config.step, Config.execute, hf, Config.closeCapture, hfind]
  cases F with
  | nil => simp [Config.dropOpening, hself]
  | cons e F => simp [Config.dropOpening, hF e List.mem_cons_self]

/-- An instruction that consumes one byte offers the point behind it, and leaves no frames. -/
theorem Instr.offers_taken (i : Instr) {n : Nat} {ok : Entry → Prop} (hi : i.isSingleByte = true)
    (hf : p.fetch? a = some (i, n)) (hd : S.length ≤ d) :
    Offers p input d (a + n) ok 0 S (.running a s.pos s.log S) (i.taken input s) := by
  have hstep := Config.execute_singleByte input (S := S) hi hf s
  rw [taken]
  by_cases hany : input[s.pos]?.any i.accepts = true
  · rw [if_pos hany] at hstep ⊢
    exact .step hd hstep (.exit (s.advanced 1) hd)
  · rw [if_neg hany] at hstep ⊢
    exact .none (.one hd hstep hd)

namespace Expr

theorem offers_leaf {l : Leaf} {ids : List UInt8} (h : (leaf l).LaidOut p a b) (hd : S.length ≤ d) :
    Offers p input d b (Entry.Of a b ids) 0 S (.running a s.pos s.log S)
      ((leaf l).results input s) := by
  obtain ⟨n, hf, rfl⟩ := h
  rw [results_leaf]
  exact l.instr.offers_taken l.isSingleByte_instr hf hd

theorem offers_anchor {x : Anchor} {ids : List UInt8} (h : (anchor x).LaidOut p a b)
    (hd : S.length ≤ d) :
    Offers p input d b (Entry.Of a b ids) 0 S (.running a s.pos s.log S)
      ((anchor x).results input s) := by
  obtain ⟨n, hf, rfl⟩ := h
  have hstep := Config.execute_anchor input (S := S) hf s
  rw [results]
  by_cases hx : x.holds input s.pos = true
  · rw [if_pos hx] at hstep ⊢
    exact .step hd hstep (.exit s hd)
  · rw [if_neg hx] at hstep ⊢
    exact .none (.one hd hstep hd)

/-- What a piece of code offers inside a capture is offered outside with the span added.  The frame
that holds the start of the capture is left with those that lie on it. -/
theorem offers_capture {index : UInt8} {ids : List UInt8} {m r start : Nat} {c : Config}
    {points : List Point} (hf : p.fetch? m = some (.captureEnd index, 3)) (hids : index ∉ ids)
    (hS : S.length ≤ d)
    (h : Offers p input d m (Entry.Of (a + 3) m ids) r (.capture index start :: S) c points) :
    Offers p input d (m + 3) (Entry.Of a (m + 3) (index :: ids)) (if 0 < r then r + 1 else 0) S c
      (points.map fun t => ⟨t.pos, t.log ++ [⟨index, start, t.pos⟩]⟩) := by
  induction h with
  | none h => exact .none (h.trans (.one h.length_right rfl hS))
  | @some c t F rest h hF hr hnil _ ih =>
    have hstep : (Config.running m t.pos t.log (F ++ .capture index start :: S)).step p input = _ :=
      Config.execute_captureEnd hf (fun e he => (hF e he).not_opens hids) t
    rw [List.map_cons]
    cases F with
    | nil =>
      -- Nothing lies on the frame, and nothing is left to try: it goes.
      rw [hnil rfl, List.map_nil]
      rw [List.isEmpty_nil, if_pos rfl] at hstep
      exact .steps (h.trans (.one h.length_right hstep hS))
        (.exit ⟨t.pos, t.log ++ [⟨index, start, t.pos⟩]⟩ hS)
    | cons e F =>
      have hpos : 0 < r := Nat.lt_of_lt_of_le (Nat.succ_pos _) hr
      have hcons : e :: F ++ .capture index start :: S =
          (e :: F ++ [.capture index start]) ++ S := by
        rw [List.append_assoc, List.singleton_append]
      have hsteps := h.trans (.one h.length_right hstep h.length_right)
      rw [List.isEmpty_cons, if_neg Bool.false_ne_true] at hsteps
      rw [hcons] at hsteps ih
      refine .some (s := ⟨t.pos, t.log ++ [⟨index, start, t.pos⟩]⟩)
        (F := e :: F ++ [.capture index start]) hsteps (fun x hx => ?_) ?_
        (absurd · (List.cons_ne_nil _ _)) ih
      · rcases List.mem_append.1 hx with hx | hx
        · exact (hF x hx).mono (Nat.le_add_right ..) (Nat.le_add_right ..)
            (List.subset_cons_self ..)
        · rw [List.mem_singleton.1 hx]
          exact List.mem_cons_self
      · rw [if_pos hpos, List.length_append, List.length_singleton]
        exact Nat.succ_le_succ hr

/-- Two pieces of code offer one list after the other if there is a split before the first, and
behind it a jump over the second.  While the first offers its points, the alternative lies below
what it leaves. -/
theorem offers_alternatives {m r r' : Nat} {o o' : Int16} {ids ids' : List UInt8}
    {points points' : List Point} (hsplit : p.fetch? a = some (.split o, 4))
    (ho : offsetTarget a o = m + 4) (hjump : p.fetch? m = some (.jump o', 4))
    (ho' : offsetTarget m o' = b) (ham : a + 4 ≤ m) (hmb : m + 4 ≤ b) (hS : S.length + 1 ≤ d)
    (hfirst : Offers p input d m (Entry.Of (a + 4) m ids) r (.alternative (m + 4) s.pos s.log :: S)
      (.running (a + 4) s.pos s.log (.alternative (m + 4) s.pos s.log :: S)) points)
    (hsecond : Offers p input d b (Entry.Of (m + 4) b ids') r' S (.running (m + 4) s.pos s.log S)
      points') :
    Offers p input d b (Entry.Of a b (ids ++ ids')) (Nat.max (r + 1) r') S
      (.running a s.pos s.log S) (points ++ points') := by
  have hS' : S.length ≤ d := Nat.le_of_succ_le hS
  have hstep : (Config.running a s.pos s.log S).step p input =
      .run (a + 4) s.pos s.log (.alternative (m + 4) s.pos s.log :: S) := by
    simp only [Config.step, Config.execute, hsplit, ho]
  -- Behind the first piece a jump goes to the end of the whole.
  have hjumped : Offers p input d b (Entry.Of a b (ids ++ ids')) r
      (.alternative (m + 4) s.pos s.log :: S)
      (.running (a + 4) s.pos s.log (.alternative (m + 4) s.pos s.log :: S)) points := by
    rw [← List.flatMap_singleton' points]
    refine Offers.bind (q := 0) hfirst (fun x hx => hx.mono (Nat.le_add_right ..)
      (Nat.le_trans (Nat.le_add_right m 4) hmb) (List.subset_append_left ..))
      (Nat.le_refl _) fun F _ _ hF t _ => ?_
    exact .step hF (by simp only [Config.step, Config.execute, hjump, ho']) (.exit t hF)
  refine .step hS' hstep (Offers.append (F := [.alternative (m + 4) s.pos s.log]) hjumped
    (List.forall_mem_singleton.2 trivial)
    (Nat.le_trans (Nat.le_of_eq (Nat.add_comm 1 r)) (Nat.le_max_left ..))
    (absurd · (List.cons_ne_nil _ _)) ?_)
  exact .step hS rfl (hsecond.mono
    (fun x hx => hx.mono (by omega) (Nat.le_refl b) (List.subset_append_right ..))
    (Nat.le_max_right ..))

/-! ### Repetitions -/

theorem keepsFrames_iff {e : Expr} {q : Quantifier} :
    e.keepsFrames q = true ↔ q.max ≠ unboundedCount ∧ 0 < e.residual := by
  simp [keepsFrames]

/-- A repetition has as many iterations as its bound allows, or as there are bytes. -/
def iterations (input : Array UInt8) (q : Quantifier) : Nat :=
  if q.max = unboundedCount then input.size else q.max.toNat

theorem left_iterations {l : Loop} {q : Quantifier} (h : l.max = q.max) (s : Point) :
    l.Left input (iterations input q) 0 s := by
  rw [Loop.Left, iterations, h]
  by_cases hmax : q.max = unboundedCount
  · rw [if_pos hmax, if_pos hmax]
    exact Nat.le_add_right ..
  · rw [if_neg hmax, if_neg hmax]
    exact Nat.zero_add _

/-- A repetition that keeps no frames is a chain of iterations. -/
theorem results_of_not_keepsFrames {e : Expr} {q : Quantifier} (hwf : e.WellFormed)
    (hk : e.keepsFrames q = false) (s : Point) :
    (repetition e q).results input s =
      inOrder q.greedy ((iterates (e.results input) (iterations input q) s).drop q.min.toNat) := by
  rw [results, iterations]
  by_cases hmax : q.max = unboundedCount
  · rw [if_pos hmax, if_pos hmax]
  · have hres : e.residual = 0 :=
      Nat.eq_zero_of_not_pos fun hpos => by rw [keepsFrames_iff.2 ⟨hmax, hpos⟩] at hk; cases hk
    rw [if_neg hmax, if_neg hmax, counted_eq_inOrder (e.length_results_le_one hwf hres),
      Nat.sub_zero]

theorem peak_of_not_keepsFrames {e : Expr} {q : Quantifier} (hk : e.keepsFrames q = false) :
    (repetition e q).peak = e.peak + 1 ∧ (repetition e q).residual = 1 := by
  have hne : ¬(q.max ≠ unboundedCount ∧ 0 < e.residual) := fun h => by
    rw [keepsFrames_iff.2 h] at hk; cases hk
  exact ⟨if_neg hne, if_neg hne⟩

/-- The code of a repetition whose body is a leaf. -/
theorem LaidOut.byteLoopCode {l : Leaf} {q : Quantifier}
    (h : (repetition (leaf l) q).LaidOut p a b) (hwf : (repetition (leaf l) q).WellFormed) :
    ∃ n, ByteLoopCode p ((leaf l).toLoop q n) a l.instr ∧ ((leaf l).toLoop q n).after a = b := by
  obtain ⟨n, hf, hafter, size, hbody, -⟩ := h
  exact ⟨n, ⟨hf, ⟨size, hbody⟩, rfl, by simp [toLoop, keepsFrames, residual], hwf.2.2.1⟩, hafter⟩

/-- The code of a repetition whose body is not a leaf, given what the code of the body offers. -/
theorem LaidOut.loopCode {e : Expr} {q : Quantifier} (h : (repetition e q).LaidOut p a b)
    (hwf : (repetition e q).WellFormed) (hleaf : e.isLeaf = false)
    (hbody : ∀ {m d : Nat} {S : List Entry} {s : Point}, e.LaidOut p (Loop.body a) m →
      s.pos ≤ input.size → S.length + e.peak ≤ d →
      Offers p input d m (Entry.Of (Loop.body a) m e.indices) e.residual S
        (.running (Loop.body a) s.pos s.log S) (e.results input s)) :
    ∃ n m, LoopCode p input (e.toLoop q n) a m e.peak e.residual e.indices (e.results input) ∧
      (e.toLoop q n).after a = b := by
  obtain ⟨n, hf, hafter, hrest⟩ := h
  rw [hleaf, if_neg Bool.false_ne_true] at hrest
  obtain ⟨m, o, he, hend, ho, rfl⟩ := hrest
  obtain ⟨hnull, hmax, hle, hwe⟩ := hwf
  exact ⟨n, m, {
    fetch := hf
    after_eq := hafter
    fetch_end := ⟨o, hend, ho⟩
    singleByte := hleaf
    body := fun d S s hs hd => hbody he hs hd
    consumes := fun s t => e.lt_of_mem_results hwe hnull
    within := fun s t ht => (e.advance_of_mem_results ht).pos_le_size
    max_pos := hmax
    min_le_max := hle }, hafter⟩

/-! ### Expressions -/

/-- **The code of an expression offers its results**, with at most `e.residual` frames left at each
of them and at most `e.peak` frames alive at any time, besides those below. -/
theorem offers_results (e : Expr) (hwf : e.WellFormed) (h : e.LaidOut p a b)
    (hs : s.pos ≤ input.size) (hd : S.length + e.peak ≤ d) :
    Offers p input d b (Entry.Of a b e.indices) e.residual S (.running a s.pos s.log S)
      (e.results input s) := by
  induction e generalizing a b d S s with
  | leaf l => exact offers_leaf h hd
  | anchor x => exact offers_anchor h hd
  | seq e f ihe ihf =>
    obtain ⟨m, he, hf⟩ := h
    have hpeak : e.peak ≤ (seq e f).peak := Nat.le_max_left ..
    have hpeak' : e.residual + f.peak ≤ (seq e f).peak := Nat.le_max_right ..
    refine Offers.bind (ihe hwf.1 he hs (by omega))
      (fun x hx => hx.mono (Nat.le_refl a) hf.le (List.subset_append_left ..)) (Nat.le_refl _)
      fun F hF hr _ t ht => ?_
    refine (ihf hwf.2 hf ((e.advance_of_mem_results ht).pos_le_size hs) ?_).mono
      (fun x hx => hx.mono he.le (Nat.le_refl b) (List.subset_append_right ..)) (Nat.le_refl _)
    rw [List.length_append]
    omega
  | alt e f ihe ihf =>
    obtain ⟨m, o, o', hsplit, ho, he, hjump, ho', hf⟩ := h
    have hpeak : e.peak + 1 ≤ (alt e f).peak := Nat.le_max_left ..
    have hpeak' : f.peak ≤ (alt e f).peak := Nat.le_max_right ..
    exact offers_alternatives hsplit ho hjump ho' he.le hf.le (by omega)
      (ihe hwf.1 he hs (by rw [List.length_cons]; omega)) (ihf hwf.2 hf hs (by omega))
  | capture index e ih =>
    obtain ⟨m, hstart, he, hend, rfl⟩ := h
    have hstep : (Config.running a s.pos s.log S).step p input =
        .run (a + 3) s.pos s.log (.capture index s.pos :: S) := by
      simp only [Config.step, Config.execute, hstart]
    have hS : S.length + (e.peak + 1) ≤ d := hd
    refine .step (show S.length ≤ d by omega) hstep (offers_capture hend hwf.1 (by omega) ?_)
    exact ih hwf.2 he hs (by rw [List.length_cons]; omega)
  | repetition e q ih =>
    have hwe := hwf.2.2.2
    cases hk : e.keepsFrames q with
    | false =>
      obtain ⟨hpeak, hres⟩ := peak_of_not_keepsFrames hk
      rw [hpeak] at hd
      rw [hres, results_of_not_keepsFrames hwe hk]
      cases hleaf : e.isLeaf with
      | true =>
        obtain ⟨l, rfl⟩ : ∃ l, e = leaf l := by cases e <;> cases hleaf; exact ⟨_, rfl⟩
        obtain ⟨n, hcode, rfl⟩ := h.byteLoopCode hwf
        rw [results_leaf]
        exact hcode.offers hd (left_iterations rfl s)
      | false =>
        obtain ⟨n, m, hcode, rfl⟩ := h.loopCode hwf hleaf (ih hwe)
        exact hcode.offers_committed hk (by omega) hs (left_iterations rfl s)
    | true =>
      obtain ⟨hmax, hpos⟩ := keepsFrames_iff.1 hk
      have hleaf : e.isLeaf = false :=
        eq_false_of_ne_true fun hleaf => by rw [residual_of_isLeaf hleaf] at hpos; cases hpos
      obtain ⟨n, m, hcode, rfl⟩ := h.loopCode hwf hleaf (ih hwe)
      rw [peak, if_pos ⟨hmax, hpos⟩] at hd
      rw [residual, if_pos ⟨hmax, hpos⟩, results, if_neg hmax]
      exact hcode.offers_kept hk hmax hs (by rw [Nat.add_comm 1]; exact hd)

end Expr

end BoundedRegex
