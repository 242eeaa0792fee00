import BoundedRegex.Proofs.Code.Closing
import BoundedRegex.Proofs.Code.Slips

/-!
# How the code of an expression is bracketed

A loop with a body of several instructions, and a capture, each stand between two instructions, of
which the first opens it and the last ends an iteration or closes the capture
(`Program.Bracket`).  In the code of an expression these brackets are matched
(`Program.Matched`, `Expr.LaidOut.matched`): one that opens inside another ends inside it, none is
entered but at its first instruction, whatever closes a capture has been opened, and no iteration is
slipped through.

`Program.Bracketed` says so of a whole program (`Expr.bracketed_code`).
-/

namespace BoundedRegex

/-- Whether an instruction opens a bracket. -/
def Instr.isOpening : Instr → Bool
  | loop l => !l.singleByte
  | captureStart _ => true
  | _ => false

/-- Whether an instruction ends a bracket. -/
def Instr.isClosing : Instr → Bool
  | loopEnd _ | captureEnd _ => true
  | _ => false

namespace Program

variable {p : Program} {a b m x x' lo last lo' last' size : Nat} {i : Instr}

/-- An instruction at `lo` opens a loop or a capture of which the last instruction is at `last`. -/
inductive Bracket (p : Program) (lo last : Nat) : Prop where
  | loop {l : Loop} {offset : Int16} {size n : Nat} (hlo : p.Starts lo)
      (hf : p.fetch? lo = some (.loop l, size)) (hsingle : l.singleByte = false)
      (hafter : l.after lo = last + 4) (hlast : p.fetch? last = some (.loopEnd offset, n))
  | capture {index : UInt8} {size : Nat} (hlo : p.Starts lo)
      (hf : p.fetch? lo = some (.captureStart index, size)) (hlast : p.Closes index last)

namespace Bracket

theorem starts (h : p.Bracket lo last) : p.Starts lo := by
  cases h with
  | loop hlo | capture hlo => exact hlo

theorem isOpening (h : p.Bracket lo last) (hf : p.fetch? lo = some (i, size)) :
    i.isOpening = true := by
  cases h with
  | loop _ hf' hsingle =>
    cases hf.symm.trans hf'
    simp [Instr.isOpening, hsingle]
  | capture _ hf' =>
    cases hf.symm.trans hf'
    rfl

theorem isClosing (h : p.Bracket lo last) (hf : p.fetch? last = some (i, size)) :
    i.isClosing = true := by
  cases h with
  | loop _ _ _ _ hlast =>
    cases hf.symm.trans hlast
    rfl
  | capture _ _ hlast =>
    obtain ⟨n, hlast⟩ := hlast.fetch
    cases hf.symm.trans hlast
    rfl

/-- A bracket has one end. -/
theorem unique (hs : p.Structured) (h : p.Bracket lo last) (h' : p.Bracket lo last') :
    last = last' := by
  cases h with
  | loop _ hf _ hafter =>
    cases h' with
    | loop _ hf' _ hafter' =>
      cases hf.symm.trans hf'
      exact Nat.add_right_cancel (hafter.symm.trans hafter')
    | capture _ hf' => cases hf.symm.trans hf'
  | capture _ hf hlast =>
    cases h' with
    | loop _ hf' => cases hf.symm.trans hf'
    | capture _ hf' hlast' =>
      cases hf.symm.trans hf'
      exact hs.closes hlast hlast'

end Bracket

/-- The brackets of a block are matched. -/
structure Matched (p : Program) (a b : Nat) : Prop extends p.Block a b where
  ends {lo last : Nat} (h : p.Bracket lo last) (ha : a ≤ lo) (hb : lo < b) : lo < last ∧ last < b
  enters {x x' lo last : Nat} (hx : p.Starts x) (hax : a ≤ x) (hxb : x < b) (hflow : p.Flows x x')
    (h : p.Bracket lo last) (ha : a ≤ lo) (hlo : lo < x') (hlast : x' ≤ last) : lo ≤ x ∧ x < last
  nested {lo last lo' last' : Nat} (h : p.Bracket lo last) (h' : p.Bracket lo' last') (ha : a ≤ lo)
    (hb : lo < b) (hlo : lo < lo') (hlast : lo' ≤ last) : last' < last
  /-- What closes a capture has been opened. -/
  opened {index : UInt8} {x : Nat} (hx : p.Closes index x) (hax : a ≤ x) (hxb : x < b) :
    ∃ lo size, a ≤ lo ∧ p.Starts lo ∧ p.fetch? lo = some (.captureStart index, size)
  /-- An iteration consumes something. -/
  advances {lo last size : Nat} {l : Loop} (h : p.Bracket lo last)
    (hf : p.fetch? lo = some (.loop l, size)) (ha : a ≤ lo) (hb : lo < b) : ¬p.Slips lo last

namespace Matched

/-- A block without brackets. -/
theorem plain (h : p.Block a b) (hopen : ∀ x i size, p.Starts x → a ≤ x → x < b →
      p.fetch? x = some (i, size) → i.isOpening = false)
    (hclose : ∀ index x, p.Closes index x → a ≤ x → b ≤ x) : p.Matched a b := by
  have hnone {lo last : Nat} (hb : p.Bracket lo last) (ha : a ≤ lo) : b ≤ lo := by
    refine Nat.le_of_not_lt fun hlt => ?_
    cases hb with
    | loop hlo hf hsingle =>
      have := hopen lo _ _ hlo ha hlt hf
      simp [Instr.isOpening, hsingle] at this
    | capture hlo hf => cases hopen lo _ _ hlo ha hlt hf
  exact {
    toBlock := h
    ends := fun hb ha hlt => absurd hlt (Nat.not_lt.2 (hnone hb ha))
    enters := fun hx hax hxb hflow hb ha hlo hlast => by
      have := hnone hb ha
      have := h.flows hx hax hxb hflow
      omega
    nested := fun hb _ ha hlt => absurd hlt (Nat.not_lt.2 (hnone hb ha))
    opened := fun hx hax hxb => absurd hxb (Nat.not_lt.2 (hclose _ _ hx hax))
    advances := fun hb _ ha hlt => absurd hlt (Nat.not_lt.2 (hnone hb ha)) }

/-- An instruction by itself that leads only to the next one. -/
theorem one (ha : p.Starts a) (hf : p.fetch? a = some (i, size)) (hi : i.targets a = [])
    (hopen : i.isOpening = false) (hclose : ∀ index, i ≠ .captureEnd index) :
    p.Matched a (a + size) := by
  refine plain (.one ha hf hi) (fun x j n hx hax hxb hf' => ?_) fun index x hx hax =>
    hx.add_le ha hf (hclose index) hax
  rcases Nat.eq_or_lt_of_le hax with rfl | hlt
  · cases hf.symm.trans hf'
    exact hopen
  · have := ha.add_le hx hf hlt
    omega

/-- One after another. -/
theorem append (h : p.Matched a m) (h' : p.Matched m b) : p.Matched a b := by
  have hle := h.le
  have hle' := h'.le
  refine {
    toBlock := h.toBlock.append h'.toBlock
    ends := fun {lo last} hb ha hlt => ?_
    enters := fun {x x' lo last} hx hax hxb hflow hb ha hlo hlast => ?_
    nested := fun {lo last lo' last'} hb hb' ha hlt hlo hlast => ?_
    opened := fun {index x} hx hax hxb => ?_
    advances := fun {lo last size l} hb hf ha hlt => ?_ }
  · rcases Nat.lt_or_ge lo m with hm | hm
    · have := h.ends hb ha hm
      omega
    · exact h'.ends hb hm hlt
  · rcases Nat.lt_or_ge x m with hxm | hxm
    · exact h.enters hx hax hxm hflow hb ha hlo hlast
    · have hto := h'.flows hx hxm hxb hflow
      rcases Nat.lt_or_ge lo m with hm | hm
      · -- What the second part leads to is behind every bracket of the first.
        have := h.ends hb ha hm
        omega
      · exact h'.enters hx hxm hxb hflow hb hm hlo hlast
  · rcases Nat.lt_or_ge lo m with hm | hm
    · exact h.nested hb hb' ha hm hlo hlast
    · exact h'.nested hb hb' hm hlt hlo hlast
  · rcases Nat.lt_or_ge x m with hxm | hxm
    · exact h.opened hx hax hxm
    · obtain ⟨lo, size, hlo, hopen⟩ := h'.opened hx hxm hxb
      exact ⟨lo, size, Nat.le_trans hle hlo, hopen⟩
  · rcases Nat.lt_or_ge lo m with hm | hm
    · exact h.advances hb hf ha hm
    · exact h'.advances hb hf hm hlt

/-- Two alternatives: a split, the first of them, a jump behind the second, and that. -/
theorem alternatives {o o' : Int16} (ha : p.Starts a) (hsplit : p.fetch? a = some (.split o, 4))
    (htarget : offsetTarget a o = m + 4) (h : p.Matched (a + 4) m) (hm : p.Starts m)
    (hjump : p.fetch? m = some (.jump o', 4)) (htarget' : offsetTarget m o' = b)
    (h' : p.Matched (m + 4) b) : p.Matched a b := by
  have hle := h.le
  have hle' := h'.le
  have hcases {x : Nat} (hx : p.Starts x) (hax : a ≤ x) :
      x = a ∨ (a + 4 ≤ x ∧ x < m) ∨ x = m ∨ m + 4 ≤ x := by
    have hfirst := ha.add_le hx hsplit
    have hlast := hm.add_le hx hjump
    omega
  have hwhere {lo last : Nat} (hb : p.Bracket lo last) (hlo : a ≤ lo) :
      (a + 4 ≤ lo ∧ lo < m) ∨ m + 4 ≤ lo := by
    rcases hcases hb.starts hlo with rfl | hin | rfl | hin
    · cases hb.isOpening hsplit
    · exact Or.inl hin
    · cases hb.isOpening hjump
    · exact Or.inr hin
  refine {
    toBlock := .alternatives ha hsplit htarget h.toBlock hm hjump htarget' h'.toBlock
    ends := fun {lo last} hb hlo hlt => ?_
    enters := fun {x x' lo last} hx hax hxb hflow hb hlo hlt hlast => ?_
    nested := fun {lo last lo' last'} hb hb' hlo hlt hlt' hlast => ?_
    opened := fun {index x} hx hax hxb => ?_
    advances := fun {lo last size l} hb hf hlo hlt => ?_ }
  · rcases hwhere hb hlo with ⟨hge, hm⟩ | hge
    · have := h.ends hb hge hm
      omega
    · have := h'.ends hb hge hlt
      omega
  · have hflow' : (x = a ∧ (x' = a + 4 ∨ x' = m + 4)) ∨
        (a + 4 ≤ x ∧ x < m ∧ a + 4 ≤ x' ∧ x' ≤ m) ∨ (x = m ∧ (x' = m + 4 ∨ x' = b)) ∨
        (m + 4 ≤ x ∧ m + 4 ≤ x' ∧ x' ≤ b) := by
      rcases hcases hx hax with rfl | ⟨hge, hlt⟩ | rfl | hge
      · have := hflow.eq_or hsplit
        simp only [Instr.targets, List.mem_singleton, htarget] at this
        omega
      · have := h.flows hx hge hlt hflow
        omega
      · have := hflow.eq_or hjump
        simp only [Instr.targets, List.mem_singleton, htarget'] at this
        omega
      · have := h'.flows hx hge hxb hflow
        omega
    rcases hwhere hb hlo with ⟨hge, hm⟩ | hge
    · have := h.ends hb hge hm
      exact h.enters hx (by omega) (by omega) hflow hb hge hlt hlast
    · have := h'.le
      rcases Nat.lt_or_ge lo b with hb' | hb'
      · have := h'.ends hb hge hb'
        exact h'.enters hx (by omega) hxb hflow hb hge hlt hlast
      · omega
  · rcases hwhere hb hlo with ⟨hge, hm⟩ | hge
    · exact h.nested hb hb' hge hm hlt' hlast
    · exact h'.nested hb hb' hge hlt hlt' hlast
  · rcases Expr.closes_alternatives ha hsplit hm hjump hx hax with ⟨hge, hlt⟩ | hge
    · obtain ⟨lo, size, hlo, hopen⟩ := h.opened hx hge hlt
      exact ⟨lo, size, by omega, hopen⟩
    · obtain ⟨lo, size, hlo, hopen⟩ := h'.opened hx hge hxb
      exact ⟨lo, size, by omega, hopen⟩
  · rcases hwhere hb hlo with ⟨hge, hm⟩ | hge
    · exact h.advances hb hf hge hm
    · exact h'.advances hb hf hge hlt

/-- A bracket, with the code inside it. -/
theorem enclosed {j : Instr} {size' : Nat} (hs : p.Structured) (hblock : p.Block a b)
    (hbracket : p.Bracket a m) (hf : p.fetch? a = some (i, size)) (h : p.Matched (a + size) m)
    (hm : p.Starts m) (hf' : p.fetch? m = some (j, size')) (hb : m + size' = b)
    (hfrom : ∀ x', p.Flows a x' → x' = a + size ∨ x' = b)
    (hback : ∀ x', p.Flows m x' → x' = a ∨ x' = b) (hlast : j.isOpening = false)
    (hclose : ∀ index, j = .captureEnd index → i = .captureStart index)
    (hadvance : ∀ l, i = .loop l → ¬p.Slips a m) : p.Matched a b := by
  have hle := h.le
  have hpos := length_of_fetch? hf
  have hpos' := length_of_fetch? hf'
  have hcases {x : Nat} (hx : p.Starts x) (hax : a ≤ x) (hxb : x < b) :
      x = a ∨ (a + size ≤ x ∧ x < m) ∨ x = m := by
    have hfirst := hbracket.starts.add_le hx hf
    have hend := hm.add_le hx hf'
    omega
  have hwhere {lo last : Nat} (hlo : p.Bracket lo last) (ha : a ≤ lo) (hlt : lo < b) :
      (lo = a ∧ last = m) ∨ (a + size ≤ lo ∧ lo < m) := by
    rcases hcases hlo.starts ha hlt with rfl | hin | rfl
    · exact Or.inl ⟨rfl, hlo.unique hs hbracket⟩
    · exact Or.inr hin
    · have := hlo.isOpening hf'
      rw [hlast] at this
      cases this
  refine {
    toBlock := hblock
    ends := fun {lo last} hlo ha hlt => ?_
    enters := fun {x x' lo last} hx hax hxb hflow hlo ha hlt hle' => ?_
    nested := fun {lo last lo' last'} hlo hlo' ha hlt hlt' hle' => ?_
    opened := fun {index x} hx hax hxb => ?_
    advances := fun {lo last n l} hlo hloop ha hlt => ?_ }
  · rcases hwhere hlo ha hlt with ⟨rfl, rfl⟩ | ⟨hge, hlt⟩
    · omega
    · have := h.ends hlo hge hlt
      omega
  · have hflow' : (x = a ∧ (x' = a + size ∨ x' = b)) ∨
        (a + size ≤ x ∧ x < m ∧ a + size ≤ x' ∧ x' ≤ m) ∨ (x = m ∧ (x' = a ∨ x' = b)) := by
      rcases hcases hx hax hxb with rfl | ⟨hge, hlt⟩ | rfl
      · exact Or.inl ⟨rfl, hfrom x' hflow⟩
      · exact Or.inr (Or.inl ⟨hge, hlt, h.flows hx hge hlt hflow⟩)
      · exact Or.inr (Or.inr ⟨rfl, hback x' hflow⟩)
    rcases Nat.lt_or_ge lo b with hlob | hlob
    · rcases hwhere hlo ha hlob with ⟨rfl, rfl⟩ | ⟨hge, hlt⟩
      · omega
      · have := h.ends hlo hge hlt
        exact h.enters hx (by omega) (by omega) hflow hlo hge (by omega) hle'
    · omega
  · rcases hwhere hlo ha hlt with ⟨rfl, rfl⟩ | ⟨hge, hlt⟩
    · rcases hwhere hlo' (Nat.le_of_lt hlt') (by omega) with ⟨rfl, -⟩ | ⟨hge, hlt⟩
      · exact absurd hlt' (Nat.lt_irrefl _)
      · exact (h.ends hlo' hge hlt).2
    · exact h.nested hlo hlo' hge hlt hlt' hle'
  · rcases hcases hx.starts hax hxb with rfl | ⟨hge, hlt⟩ | rfl
    · obtain ⟨n, hfetch⟩ := hx.fetch
      cases hbracket.isOpening hfetch
    · obtain ⟨lo, n, hlo, hopen⟩ := h.opened hx hge hlt
      exact ⟨lo, n, by omega, hopen⟩
    · obtain ⟨n, hfetch⟩ := hx.fetch
      cases hf'.symm.trans hfetch
      exact ⟨a, size, Nat.le_refl a, hbracket.starts, hclose index rfl ▸ hf⟩
  · rcases hwhere hlo ha hlt with ⟨rfl, rfl⟩ | ⟨hge, hlt⟩
    · cases hf.symm.trans hloop
      exact hadvance l rfl
    · exact h.advances hlo hloop hge hlt

end Matched

end Program

namespace Expr

variable {p : Program} {e : Expr} {a b : Nat}

theorem isOpening_leaf (l : Leaf) : l.instr.isOpening = false := by
  have hsingle := l.isSingleByte_instr
  cases hinstr : l.instr with
  | loop | captureStart =>
    rw [hinstr] at hsingle
    cases hsingle
  | _ => rfl

/-- A loop around a single byte is no bracket. -/
theorem LaidOut.matched_leaf {l : Leaf} {q : Quantifier} (h : (repetition (leaf l) q).LaidOut p a b)
    (ha : p.Starts a) (hb : b < p.code.length) : p.Matched a b := by
  have hblock := h.block ha hb
  obtain ⟨n, hloop, hafter, hbody⟩ := h
  obtain ⟨k, hf, rfl⟩ : (leaf l).LaidOut p (Loop.body a) b := by simpa [isLeaf] using hbody
  have hfirst : p.Starts (Loop.body a) :=
    .next ha hloop (Nat.lt_of_le_of_lt (Nat.le_add_right _ k) hb)
  refine .plain hblock (fun x i size hx hax hxb hf' => ?_) fun index x hx hax => ?_
  · rcases Nat.eq_or_lt_of_le hax with rfl | hlt
    · cases hloop.symm.trans hf'
      rfl
    · rcases Nat.eq_or_lt_of_le (ha.add_le hx hloop hlt) with rfl | hlt
      · cases hf.symm.trans hf'
        exact isOpening_leaf l
      · have := hfirst.add_le hx hf hlt
        omega
  · exact hx.add_le hfirst hf (Leaf.instr_ne_captureEnd l index) (hx.add_le ha hloop nofun hax)

/-- **The brackets in the code of an expression are matched.** -/
theorem LaidOut.matched (h : e.LaidOut p a b) (hp : p.Sound) (hs : p.Structured) (ha : p.Starts a)
    (hb : b < p.code.length) (hwf : e.WellFormed) : p.Matched a b := by
  have hblock := h.block ha hb
  induction e generalizing a b with
  | leaf l =>
    obtain ⟨n, hf, rfl⟩ := h
    exact .one ha hf (l.targets_instr a) (isOpening_leaf l) (Leaf.instr_ne_captureEnd l)
  | anchor x =>
    obtain ⟨n, hf, rfl⟩ := h
    refine .one ha hf (x.targets_instr a) ?_ fun index => ?_
    · cases x <;> rfl
    · cases x <;> nofun
  | seq e f ihe ihf =>
    obtain ⟨m, he, ⟨hm, hmb⟩, hf⟩ := h.parts_seq ha hb
    exact (ihe he ha hmb hwf.1 (he.block ha hmb)).append (ihf hf hm hb hwf.2 (hf.block hm hb))
  | alt e f ihe ihf =>
    obtain ⟨m, o, o', ⟨hsplit, htarget⟩, ⟨hfirst, he⟩, ⟨hm, hmb, hjump, htarget'⟩, hlast, hf⟩ :=
      h.parts_alt ha hb
    exact .alternatives ha hsplit htarget (ihe he hfirst hmb hwf.1 (he.block hfirst hmb)) hm hjump
      htarget' (ihf hf hlast hb hwf.2 (hf.block hlast hb))
  | capture index e ih =>
    obtain ⟨m, hopen, ⟨hfirst, he⟩, ⟨hm, hmb, hclose⟩, rfl⟩ := h.parts_capture ha hb
    refine .enclosed hs hblock (.capture ha hopen ⟨hm, 3, hclose⟩) hopen
      (ih he hfirst hmb hwf.2 (he.block hfirst hmb)) hm hclose rfl ?_ ?_ rfl ?_ nofun
    · intro x' hflow
      exact Or.inl ((hflow.eq_or hopen).resolve_right List.not_mem_nil)
    · intro x' hflow
      exact Or.inr ((hflow.eq_or hclose).resolve_right List.not_mem_nil)
    · rintro _ ⟨⟩
      rfl
  | repetition e q ih =>
    cases hleaf : e.isLeaf with
    | true =>
      cases e with
      | leaf l => exact h.matched_leaf ha hb
      | _ => cases hleaf
    | false =>
      obtain ⟨hnull, -, -, hwf⟩ := hwf
      obtain ⟨n, hloop, hafter, hbody⟩ := h
      rw [hleaf, if_neg Bool.false_ne_true] at hbody
      obtain ⟨m, o, he, hend, htarget, rfl⟩ := hbody
      have hle := he.le
      have hm' : m < p.code.length := by omega
      have hfirst : p.Starts (Loop.body a) := .next ha hloop (Nat.lt_of_le_of_lt hle hm')
      have hm := he.starts hfirst hm'
      refine .enclosed hs hblock (.loop ha hloop hleaf hafter hend) hloop
        (ih he hfirst hm' hwf (he.block hfirst hm')) hm hend rfl ?_ ?_ rfl nofun ?_
      · intro x' hflow
        simpa [Instr.targets, hafter] using hflow.eq_or hloop
      · intro x' hflow
        simpa [Instr.targets, htarget, or_comm] using hflow.eq_or hend
      · -- Within an iteration nothing is slipped through but the opening instruction.
        intro l _ hslips
        rcases hslips.first with heq | ⟨x, hx, hslips⟩
        · have hlt : a < Loop.body a := Loop.lt_body a
          omega
        · rcases (hx.eq_or hloop).2 with rfl | ⟨hx, -⟩
          · exact he.not_slips hfirst hm' hwf hnull hslips
          · obtain rfl : x = m + 4 := (List.mem_singleton.1 hx).trans hafter
            have := hslips.le hp
            omega

end Expr

/-! ### Programs -/

/-- The brackets of a program are matched. -/
structure Program.Bracketed (p : Program) : Prop where
  lt {lo last : Nat} (h : p.Bracket lo last) : lo < last
  enters {x x' lo last : Nat} (hx : p.Starts x) (hflow : p.Flows x x') (h : p.Bracket lo last)
    (hlo : lo < x') (hlast : x' ≤ last) : lo ≤ x ∧ x < last
  nested {lo last lo' last' : Nat} (h : p.Bracket lo last) (h' : p.Bracket lo' last')
    (hlo : lo < lo') (hlast : lo' ≤ last) : last' < last
  opened {index : UInt8} {x : Nat} (hx : p.Closes index x) :
    ∃ lo size, p.Bracket lo x ∧ p.fetch? lo = some (.captureStart index, size)
  advances {lo last size : Nat} {l : Loop} (h : p.Bracket lo last)
    (hf : p.fetch? lo = some (.loop l, size)) : ¬p.Slips lo last

namespace Program.Bracketed

variable {p : Program} {x lo last lo' last' : Nat}

/-- A bracket has one beginning. -/
theorem unique (hb : p.Bracketed) (h : p.Bracket lo last) (h' : p.Bracket lo' last) : lo = lo' := by
  rcases Nat.lt_trichotomy lo lo' with hlt | heq | hlt
  · exact absurd (hb.nested h h' hlt (Nat.le_of_lt (hb.lt h'))) (Nat.lt_irrefl last)
  · exact heq
  · exact absurd (hb.nested h' h hlt (Nat.le_of_lt (hb.lt h))) (Nat.lt_irrefl last)

/-- Nothing slips into a bracket but from its beginning. -/
theorem slips_of_le (hb : p.Bracketed) (h : p.Bracket lo last) {a : Nat} (ha : a ≤ lo)
    (hslips : p.Slips a x) (hlo : lo < x) (hlast : x ≤ last) : p.Slips lo x := by
  induction hslips with
  | refl => omega
  | step hslips hs ih =>
    obtain ⟨hle, hlt⟩ := hb.enters hs.starts hs.flows h hlo hlast
    rcases Nat.eq_or_lt_of_le hle with rfl | hlt'
    · exact .step .refl hs
    · exact (ih hlt' (Nat.le_of_lt hlt)).step hs

/-- **Where an iteration ends, something has been consumed** since any bracket around it was opened,
and since the iteration began. -/
theorem not_slips (hb : p.Bracketed) {l : Loop} {size : Nat} (h : p.Bracket lo last)
    (hf : p.fetch? lo = some (.loop l, size)) (h' : p.Bracket lo' last') (hlo : lo' < last)
    (hlast : last ≤ last') : ¬p.Slips lo' last := by
  intro hslips
  have hle : lo' ≤ lo := by
    refine Nat.le_of_not_lt fun hlt => ?_
    have := hb.nested h h' hlt (Nat.le_of_lt hlo)
    omega
  exact hb.advances h hf (hb.slips_of_le h hle hslips (hb.lt h) (Nat.le_refl last))

end Program.Bracketed

/-- **A program that holds the code of an expression is bracketed.** -/
theorem Expr.bracketed_code {p : Program} {e : Expr}
    (hcode : p.code = e.code ++ Instr.accept.encode) (hlen : p.code.length ≤ maxCodeLength)
    (hwf : e.WellFormed) (hp : p.Sound) (hs : p.Structured) : p.Bracketed := by
  obtain ⟨hlaid, haccept, hlength, hzero⟩ := laidOut_of_code hcode hlen
  have hlt : e.code.length < p.code.length := by omega
  have hend := Program.Matched.one (hlaid.starts hzero hlt) haccept rfl rfl nofun
  have hmatched := (hlaid.matched hp hs hzero hlt hwf).append hend
  have hin {x : Nat} (hx : p.Starts x) : x < e.code.length + 2 := hlength ▸ hx.lt
  exact {
    lt := fun h => (hmatched.ends h (Nat.zero_le _) (hin h.starts)).1
    enters := fun hx hflow h =>
      hmatched.enters hx (Nat.zero_le _) (hin hx) hflow h (Nat.zero_le _)
    nested := fun h h' => hmatched.nested h h' (Nat.zero_le _) (hin h.starts)
    opened := fun hx => by
      obtain ⟨lo, size, -, hlo, hf⟩ := hmatched.opened hx (Nat.zero_le _) (hin hx.starts)
      exact ⟨lo, size, .capture hlo hf hx, hf⟩
    advances := fun h hf => hmatched.advances h hf (Nat.zero_le _) (hin h.starts) }

end BoundedRegex
