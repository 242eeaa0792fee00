import BoundedRegex.Proofs.ByteSet.Members
import BoundedRegex.Proofs.Compile.Compiler
import BoundedRegex.Proofs.Compile.Progress
import BoundedRegex.Proofs.Pattern.Numbering

/-!
# Which captures the compiler marks

The compiler has no tree in which to look for captures: when an operand is repeated, it marks all
the numbers that have been given out since the operand began.  Those are the captures inside the
operand (`Derives.marks`), so in the end just the captures are marked that the expression has inside
repetitions that may iterate more than once (`Compiler.captureInLoop_iff`).
-/

namespace BoundedRegex

namespace Expr

theorem loopIndices_subset (e : Expr) : e.loopIndices ⊆ e.indices := by
  induction e with
  | leaf | anchor => exact List.Subset.refl _
  | seq a b iha ihb | alt a b iha ihb =>
    show a.loopIndices ++ b.loopIndices ⊆ a.indices ++ b.indices
    exact List.append_subset.2
      ⟨List.subset_append_of_subset_left _ iha, List.subset_append_of_subset_right _ ihb⟩
  | capture index e ih => exact List.subset_cons_of_subset _ ih
  | repetition e q ih =>
    rw [loopIndices]
    split
    · exact List.Subset.refl _
    · exact ih

end Expr

/-! ### Single tokens -/

namespace Emission

variable {E E' : Emission} {position : Nat}

/-- One compilation has the same brackets open as another, the same captures and the same marks. -/
structure Keeps (E E' : Emission) : Prop where
  openings : E'.openings = E.openings
  captures : E'.captures = E.captures
  loopBound : E'.loopBound = E.loopBound

theorem keeps_element {i : Instr} {f : Footprint} (h : E.element position i f = .ok E') :
    E.Keeps E' ∧ ∃ o, E'.level.operand = some o ∧ o.firstCapture = E.captures := by
  obtain ⟨b, -, rfl⟩ := write_eq h
  exact ⟨⟨rfl, rfl, rfl⟩, _, rfl, rfl⟩

theorem keeps_alternate (h : E.alternate position = .ok E') : E.Keeps E' := by
  unfold alternate at h
  split at h
  · cases h
  · obtain ⟨E₁, h₁, h⟩ := bind_eq_ok h
    obtain ⟨b₁, -, rfl⟩ := write_eq h₁
    obtain ⟨E₂, h₂, h⟩ := bind_eq_ok h
    obtain ⟨b₂, -, rfl⟩ := write_eq h₂
    cases h
    exact ⟨rfl, rfl, rfl⟩

theorem keeps_closeLevel {f : Footprint} (h : E.closeLevel position = .ok (f, E')) :
    E.Keeps E' := by
  unfold closeLevel at h
  split at h
  · cases h
  · cases h
    cases E.level.lastJump <;> exact ⟨rfl, rfl, rfl⟩

/-- An opening bracket takes a number if it captures, and remembers the next one before, and where
it is. -/
theorem enter_eq {limit : Nat} {capturing : Bool}
    (h : E.enter limit position capturing = .ok E') :
    (∃ o, E'.openings = o :: E.openings ∧ o.firstCapture = E.captures ∧ o.position = position) ∧
      E'.captures = E.captures + capturing.toNat ∧ E'.loopBound = E.loopBound := by
  unfold enter at h
  split at h
  · cases h
  · cases capturing with
    | false =>
      cases h
      exact ⟨⟨_, rfl, rfl, rfl⟩, rfl, rfl⟩
    | true =>
      rw [if_pos rfl] at h
      split at h
      · obtain ⟨E₁, h₁, h⟩ := bind_eq_ok h
        obtain ⟨b, -, rfl⟩ := write_eq h₁
        cases h
        exact ⟨⟨_, rfl, rfl, rfl⟩, rfl, rfl⟩
      · cases h

/-- A closing bracket makes an operand that begins where the bracket was opened. -/
theorem leave_eq {capturing : Bool} {o : Opening} {outer : List Opening}
    (ho : E.openings = o :: outer) (h : E.leave position capturing = .ok E') :
    E'.openings = outer ∧ E'.captures = E.captures ∧ E'.loopBound = E.loopBound ∧
      ∃ p, E'.level.operand = some p ∧ p.firstCapture = o.firstCapture := by
  unfold leave at h
  rw [ho] at h
  obtain ⟨⟨f, E₁⟩, hclose, h⟩ := bind_eq_ok h
  obtain ⟨-, hcaptures, hmarks⟩ := keeps_closeLevel hclose
  dsimp only at h
  split at h
  · cases h
    exact ⟨rfl, hcaptures, hmarks, _, rfl, rfl⟩
  · obtain ⟨b, -, rfl⟩ := write_eq h
    exact ⟨rfl, hcaptures, hmarks, _, rfl, rfl⟩
  · cases h

/-- A quantifier that allows a second iteration marks what the operand has numbered. -/
theorem quantify_eq {q : Quantifier} {o : Operand} (ho : E.level.operand = some o)
    (h : E.quantify position q = .ok E') :
    E'.openings = E.openings ∧ E'.captures = E.captures ∧
      E'.loopBound = if 1 < q.max then
        E.loopBound ||| bitSpan o.firstCapture (E.captures - o.firstCapture) else E.loopBound := by
  unfold quantify at h
  rw [ho] at h
  dsimp only at h
  split at h
  · cases h
  · obtain ⟨E₁, h₁, h⟩ := bind_eq_ok h
    obtain ⟨b, -, rfl⟩ := write_eq h₁
    cases h
    exact ⟨rfl, rfl, rfl⟩

/-! ### Phrases -/

/-- From one compilation to another `e` has been read: the captures go up to `n`, and those of them
are marked that `e` has inside a loop. -/
structure Marks (E E' : Emission) (n : Nat) (e : Expr) : Prop where
  openings : E'.openings = E.openings
  captures : E'.captures = n
  loopBound (i : Nat) : E'.loopBound.getLsbD i = true ↔
    E.loopBound.getLsbD i = true ∨ i ∈ e.loopIndices.map UInt8.toNat

namespace Marks

variable {E₁ E₂ : Emission} {n n₁ : Nat} {e f : Expr}

theorem of_keeps (h : E.Keeps E') (he : e.loopIndices = []) : E.Marks E' E.captures e where
  openings := h.openings
  captures := h.captures
  loopBound i := by simp [h.loopBound, he]

/-- The marks of one part after the other. -/
theorem append {g : Expr} (h : E.Marks E₁ n₁ e) (h' : E₁.Marks E' n f)
    (hg : g.loopIndices = e.loopIndices ++ f.loopIndices) : E.Marks E' n g where
  openings := h'.openings.trans h.openings
  captures := h'.captures
  loopBound i := by
    rw [h'.loopBound, h.loopBound, hg, List.map_append, List.mem_append, or_assoc]

/-- Brackets around what has been read mark nothing. -/
theorem bracketed {limit position position' : Nat} {capturing : Bool} {g : Expr}
    (hopen : E.enter limit position capturing = .ok E₁) (h : E₁.Marks E₂ n e)
    (hclose : E₂.leave position' capturing = .ok E') (hg : g.loopIndices = e.loopIndices) :
    E.Marks E' n g ∧ ∃ o, E'.level.operand = some o ∧ o.firstCapture = E.captures := by
  obtain ⟨⟨o, ho, hfirst, -⟩, -, hmarks⟩ := enter_eq hopen
  obtain ⟨hopenings, hcaptures, hmarks', p, hp, hpfirst⟩ :=
    leave_eq (h.openings.trans ho) hclose
  refine ⟨⟨hopenings, hcaptures.trans h.captures, fun i => ?_⟩, p, hp, hpfirst.trans hfirst⟩
  rw [hmarks', h.loopBound, hmarks, hg]

/-- A quantifier marks the captures of its operand. -/
theorem quantify {q : Quantifier} {o : Operand} (h : E.Marks E₁ n e)
    (ho : E₁.level.operand = some o) (hE' : E₁.quantify position q = .ok E') (hn : n ≤ 255)
    (hle : o.firstCapture ≤ n)
    (hindices : e.indices.map UInt8.toNat = List.range' o.firstCapture (n - o.firstCapture)) :
    E.Marks E' n (.repetition e q) := by
  obtain ⟨hopenings, hcaptures, hmarks⟩ := quantify_eq ho hE'
  refine ⟨hopenings.trans h.openings, hcaptures.trans h.captures, fun i => ?_⟩
  rw [hmarks, Expr.loopIndices]
  split
  · have hinside : i ∈ e.loopIndices.map UInt8.toNat → i ∈ e.indices.map UInt8.toNat :=
      fun hi => List.map_subset _ e.loopIndices_subset hi
    have hspan : (bitSpan o.firstCapture (n - o.firstCapture)).getLsbD i = true ↔
        i ∈ e.indices.map UInt8.toNat := by
      rw [getLsbD_bitSpan (by omega), hindices, List.mem_range'_1, decide_eq_true_eq]
    rw [BitVec.getLsbD_or, Bool.or_eq_true, h.captures, hspan, h.loopBound, or_assoc]
    exact or_congr_right (or_iff_right_of_imp hinside)
  · exact h.loopBound i

end Marks

end Emission

/-- **Reading a phrase marks the captures that its expression has inside loops.** -/
theorem Derives.marks {c : Category} {n n' : Nat} {tokens : List TokenKind} {e : Expr}
    (h : Derives c n tokens e n') (hn : n ≤ 255) {limit : Nat} {E E' : Emission} {list : List Token}
    (hlist : list.map (·.kind) = tokens) (hE : E.captures = n)
    (hfeed : list.foldlM (Emission.feed limit) E = .ok E') :
    E.Marks E' n' e ∧
      (c = .element → ∃ o, E'.level.operand = some o ∧ o.firstCapture = n) := by
  induction h generalizing E E' list with
  | byte | set | anyByte | inputStart | inputEnd =>
    obtain ⟨⟨kind, position⟩, rfl, rfl⟩ := List.map_eq_singleton_iff.1 hlist
    obtain ⟨hkeeps, hoperand⟩ := Emission.keeps_element (Emission.feed_singleton_iff.1 hfeed)
    exact ⟨hE ▸ .of_keeps hkeeps rfl, fun _ => hE ▸ hoperand⟩
  | group _ ih =>
    obtain ⟨⟨kind, position⟩, inner, ⟨kind', position'⟩, rfl, rfl, hinner, rfl⟩ :=
      exists_bracketed hlist
    obtain ⟨E₁, hopen, E₂, hinside, hclose⟩ := Emission.feed_bracketed_iff.1 hfeed
    obtain ⟨hmarks, -⟩ := ih hn hinner ((Emission.enter_eq hopen).2.1.trans hE) hinside
    obtain ⟨hmarks, hoperand⟩ := hmarks.bracketed hopen hclose rfl
    exact ⟨hmarks, fun _ => hE ▸ hoperand⟩
  | @capture n _ _ e hlt _ ih =>
    obtain ⟨⟨kind, position⟩, inner, ⟨kind', position'⟩, rfl, rfl, hinner, rfl⟩ :=
      exists_bracketed hlist
    obtain ⟨E₁, hopen, E₂, hinside, hclose⟩ := Emission.feed_bracketed_iff.1 hfeed
    obtain ⟨hmarks, -⟩ := ih hlt hinner (by rw [(Emission.enter_eq hopen).2.1, hE]; rfl) hinside
    obtain ⟨hmarks, hoperand⟩ := hmarks.bracketed (g := .capture (.ofNat n) e) hopen hclose rfl
    exact ⟨hmarks, fun _ => hE ▸ hoperand⟩
  | single _ ih | one _ ih | last _ ih => exact ⟨(ih hn hlist hE hfeed).1, nofun⟩
  | quantified q h _ ih =>
    obtain ⟨first, last, rfl, hfirst, hlast⟩ := List.map_eq_append_iff.1 hlist
    obtain ⟨⟨kind, position⟩, rfl, rfl⟩ := List.map_eq_singleton_iff.1 hlast
    obtain ⟨E₁, hfeed, hlast⟩ := Emission.feed_append_iff.1 hfeed
    obtain ⟨hmarks, hoperand⟩ := ih hn hfirst hE hfeed
    obtain ⟨o, ho, rfl⟩ := hoperand rfl
    exact ⟨hmarks.quantify ho (Emission.feed_singleton_iff.1 hlast) (h.le_255 hn)
      (h.eq_add_count ▸ Nat.le_add_right ..) h.map_toNat_indices, nofun⟩
  | more h _ ih ih' =>
    obtain ⟨first, second, rfl, hfirst, hsecond⟩ := List.map_eq_append_iff.1 hlist
    obtain ⟨E₁, hfeed, hfeed'⟩ := Emission.feed_append_iff.1 hfeed
    obtain ⟨hmarks, -⟩ := ih hn hfirst hE hfeed
    obtain ⟨hmarks', -⟩ := ih' (h.le_255 hn) hsecond hmarks.captures hfeed'
    exact ⟨hmarks.append hmarks' rfl, nofun⟩
  | either h _ ih ih' =>
    obtain ⟨first, others, rfl, hfirst, hothers⟩ := List.map_eq_append_iff.1 hlist
    obtain ⟨⟨kind, position⟩, second, rfl, rfl, hsecond⟩ := List.map_eq_cons_iff.1 hothers
    obtain ⟨E₁, hfeed, hothers⟩ := Emission.feed_append_iff.1 hfeed
    obtain ⟨E₂, halternate, hfeed'⟩ := Emission.feed_cons_iff.1 hothers
    obtain ⟨hmarks, -⟩ := ih hn hfirst hE hfeed
    obtain ⟨hopenings, hcaptures, hbound⟩ := Emission.keeps_alternate halternate
    obtain ⟨hmarks', -⟩ := ih' (h.le_255 hn) hsecond (hcaptures.trans hmarks.captures) hfeed'
    have hthrough : E₁.Marks E' _ _ :=
      ⟨hmarks'.openings.trans hopenings, hmarks'.captures, fun i => by
        rw [hmarks'.loopBound, hbound]⟩
    exact ⟨hmarks.append hthrough rfl, nofun⟩

/-! ### Patterns -/

/-- The end of a pattern marks nothing. -/
theorem Emission.keeps_finish {E E' : Emission} {length : Nat} {f : Footprint}
    (h : E.finish length = .ok (f, E')) : E.Keeps E' := by
  obtain ⟨⟨g, E₁⟩, hclose, h⟩ := bind_eq_ok h
  have hkeeps := keeps_closeLevel hclose
  dsimp only at h
  split at h
  · cases h
  · obtain ⟨E₂, hwrite, h⟩ := bind_eq_ok h
    obtain ⟨b, -, rfl⟩ := write_eq hwrite
    cases h
    exact ⟨hkeeps.openings, hkeeps.captures, hkeeps.loopBound⟩

/-- The header keeps the bits that its bytes have room for. -/
theorem testBit_mod_captureBytes (captures i : Nat) (bits : BitVec 256) :
    (bits.toNat % Nat.pow 256 (captureBytes captures)).testBit i =
      (decide (i < 8 * captureBytes captures) && bits.getLsbD i) := by
  have hpow : Nat.pow 256 (captureBytes captures) = 2 ^ (8 * captureBytes captures) :=
    (Nat.pow_mul 2 8 _).symm
  rw [hpow, Nat.testBit_mod_two_pow, BitVec.testBit_toNat]

/-- The captures in loops are captures of the pattern. -/
theorem Derives.lt_of_mem_loopIndices {tokens : List TokenKind} {e : Expr} {n i : Nat}
    (h : Derives .alternation 0 tokens e n) (hi : i ∈ e.loopIndices.map UInt8.toNat) : i < n := by
  have hmem := List.map_subset UInt8.toNat e.loopIndices_subset hi
  rw [h.map_toNat_indices, List.mem_range'_1] at hmem
  omega

namespace Compiler

variable {c : Compiler} {pattern buffer : List UInt8} {r : Regex} {e : Expr} {n : Nat}

/-- The expression that a pattern stands for tells its code, its scratch depth and its captures. -/
theorem eq_of_derives (h : c.compile pattern buffer = .ok r)
    (hderives : Derives .alternation 0 (Lexemes.kinds pattern) e n) :
    r.code = e.code ++ Instr.accept.encode ∧ r.scratchDepth.toNat = e.peak ∧
      r.captures.toNat = n := by
  obtain ⟨e', n', hderives', -, hcode, hdepth, hcaptures⟩ := c.compile_derives h
  obtain ⟨rfl, rfl⟩ := hderives'.unique hderives
  exact ⟨hcode, hdepth, hderives'.captures_eq hcaptures⟩

/-- The bits in the header are those of the captures that the expression has inside loops; the bits
beyond the captures are clear. -/
theorem testBit_loopBound_iff (h : c.compile pattern buffer = .ok r)
    (hderives : Derives .alternation 0 (Lexemes.kinds pattern) e n) (i : Nat) :
    r.loopBound.testBit i = true ↔ i ∈ e.loopIndices.map UInt8.toNat := by
  obtain ⟨-, -, hn⟩ := eq_of_derives h hderives
  obtain ⟨E, hfold, h⟩ := bind_eq_ok h
  obtain ⟨length, -, h⟩ := bind_eq_ok h
  obtain ⟨⟨f, E'⟩, hfinish, h⟩ := bind_eq_ok h
  obtain ⟨⟨-, -, hmarks⟩, -⟩ := hderives.marks (Nat.zero_le _) rfl rfl hfold
  obtain ⟨-, -, hmarks'⟩ := Emission.keeps_finish hfinish
  have hmark : E'.loopBound.getLsbD i = true ↔ i ∈ e.loopIndices.map UInt8.toNat := by
    rw [hmarks', hmarks]
    exact or_iff_right (by simp)
  unfold Emission.toRegex at h
  dsimp only at h
  split at h
  · cases h
  · split at h
    · cases h
    · cases h
      dsimp only at hn ⊢
      rw [hn, testBit_mod_captureBytes, Bool.and_eq_true, decide_eq_true_eq, hmark]
      refine and_iff_right_of_imp fun hi => ?_
      have hlt := hderives.lt_of_mem_loopIndices hi
      rw [captureBytes]
      omega

/-- **The captures that are marked are those in loops**: the ones that the expression has inside
repetitions that may iterate more than once. -/
theorem captureInLoop_iff (h : c.compile pattern buffer = .ok r)
    (hderives : Derives .alternation 0 (Lexemes.kinds pattern) e n) (i : Nat) :
    r.captureInLoop i = true ↔ i ∈ e.loopIndices.map UInt8.toNat := by
  rw [Regex.captureInLoop, Bool.and_eq_true, decide_eq_true_eq, testBit_loopBound_iff h hderives]
  refine and_iff_right_of_imp fun hi => ?_
  rw [(eq_of_derives h hderives).2.2]
  exact hderives.lt_of_mem_loopIndices hi

end Compiler

end BoundedRegex
