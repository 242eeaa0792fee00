import BoundedRegex.Proofs.Code.Nesting

/-!
# Going on without consuming anything

From an address the machine may *slip* to another if it may come there, whatever the input is, while
the offset stays the same: it consumes no byte and ends no iteration, and it goes behind a loop only
if that need not iterate.  Slipping is the most that may happen at one offset, not what does happen:
anchors are taken to hold, and both ways of a split are open.

The code of an expression that consumes something is not slipped through
(`Expr.LaidOut.not_slips`).
-/

namespace BoundedRegex

/-- Whether the machine may be behind an instruction without having consumed anything. -/
def Instr.isPassed : Instr → Bool
  | byte _ | anyByte | bitmap .. | ranges .. | loopEnd _ => false
  | _ => true

theorem Leaf.isPassed_instr (l : Leaf) : l.instr.isPassed = false := by
  have hsingle := l.isSingleByte_instr
  cases hinstr : l.instr with
  | byte | anyByte | bitmap | ranges | loopEnd => rfl
  | _ =>
    rw [hinstr] at hsingle
    cases hsingle

namespace Program

variable {p : Program} {a b c m size : Nat} {i : Instr}

/-- From one instruction to another without consuming anything. -/
structure Slip (p : Program) (a b : Nat) : Prop where
  starts : p.Starts a
  passed : ∃ i size, p.fetch? a = some (i, size) ∧ i.isPassed = true ∧
    (b = a + size ∨ b ∈ i.targets a ∧ ∀ l, i = .loop l → l.min = 0)

/-- From an address to another without consuming anything. -/
inductive Slips (p : Program) (a : Nat) : Nat → Prop where
  | refl : Slips p a a
  | step {b c : Nat} (h : Slips p a b) (hs : p.Slip b c) : Slips p a c

namespace Slip

theorem flows (h : p.Slip a b) : p.Flows a b := by
  obtain ⟨i, size, hf, -, hb⟩ := h.passed
  exact ⟨i, size, hf, hb.imp_right And.left⟩

theorem next (ha : p.Starts a) (hf : p.fetch? a = some (i, size)) (hi : i.isPassed = true) :
    p.Slip a (a + size) :=
  ⟨ha, i, size, hf, hi, Or.inl rfl⟩

theorem target (ha : p.Starts a) (hf : p.fetch? a = some (i, size)) (hi : i.isPassed = true)
    (hb : b ∈ i.targets a) (hskip : ∀ l, i = .loop l → l.min = 0) : p.Slip a b :=
  ⟨ha, i, size, hf, hi, Or.inr ⟨hb, hskip⟩⟩

theorem eq_or (h : p.Slip a b) (hf : p.fetch? a = some (i, size)) :
    i.isPassed = true ∧ (b = a + size ∨ b ∈ i.targets a ∧ ∀ l, i = .loop l → l.min = 0) := by
  obtain ⟨i', size', hf', h⟩ := h.passed
  cases hf.symm.trans hf'
  exact h

/-- In sound code that is further on. -/
theorem lt (hp : p.Sound) (h : p.Slip a b) : a < b := by
  obtain ⟨i, size, hf, hi, rfl | ⟨hb, -⟩⟩ := h.passed
  · have := length_of_fetch? hf
    omega
  · cases i with
    | split =>
      obtain rfl := List.mem_singleton.1 hb
      exact (hp.split h.starts hf).1
    | jump =>
      obtain rfl := List.mem_singleton.1 hb
      exact (hp.jump h.starts hf).1
    | loop l =>
      obtain rfl := List.mem_singleton.1 hb
      exact l.lt_after a
    | loopEnd => cases hi
    | _ => cases hb

end Slip

namespace Slips

theorem le (hp : p.Sound) (h : p.Slips a b) : a ≤ b := by
  induction h with
  | refl => exact Nat.le_refl a
  | step _ hs ih => exact Nat.le_trans ih (Nat.le_of_lt (hs.lt hp))

/-- The first of the instructions that are passed. -/
theorem first (h : p.Slips a b) : b = a ∨ ∃ x, p.Slip a x ∧ p.Slips x b := by
  induction h with
  | refl => exact Or.inl rfl
  | step _ hs ih =>
    rcases ih with rfl | ⟨x, hx, h⟩
    · exact Or.inr ⟨_, hs, .refl⟩
    · exact Or.inr ⟨x, hx, h.step hs⟩

/-- Out of a block there is no way but through its end. -/
theorem through (hblock : p.Block a m) (h : p.Slips a b) (hmb : m ≤ b) :
    p.Slips a m ∧ p.Slips m b := by
  have hwhere : (a ≤ b ∧ b < m) ∨ (p.Slips a m ∧ p.Slips m b) := by
    clear hmb
    induction h with
    | refl =>
      rcases Nat.eq_or_lt_of_le hblock.le with rfl | hlt
      · exact Or.inr ⟨.refl, .refl⟩
      · exact Or.inl ⟨Nat.le_refl a, hlt⟩
    | step h hs ih =>
      rcases ih with ⟨hab, hbm⟩ | ⟨h₁, h₂⟩
      · obtain ⟨hac, hcm⟩ := hblock.flows hs.starts hab hbm hs.flows
        rcases Nat.eq_or_lt_of_le hcm with rfl | hlt
        · exact Or.inr ⟨h.step hs, .refl⟩
        · exact Or.inl ⟨hac, hlt⟩
      · exact Or.inr ⟨h₁, h₂.step hs⟩
  exact hwhere.resolve_left fun hlt => absurd hlt.2 (Nat.not_lt.2 hmb)

end Slips

end Program

/-- **The code of an expression that consumes something is not slipped through.** -/
theorem Expr.LaidOut.not_slips {p : Program} {e : Expr} {a b : Nat} (h : e.LaidOut p a b)
    (ha : p.Starts a) (hb : b < p.code.length) (hwf : e.WellFormed) (hnull : e.nullable = false) :
    ¬p.Slips a b := by
  intro hslips
  induction e generalizing a b with
  | leaf l =>
    obtain ⟨n, hf, rfl⟩ := h
    have hpos := Program.length_of_fetch? hf
    rcases hslips.first with heq | ⟨x, hx, -⟩
    · omega
    · have hpassed := (hx.eq_or hf).1
      rw [l.isPassed_instr] at hpassed
      cases hpassed
  | anchor => cases hnull
  | seq e f ihe ihf =>
    obtain ⟨m, he, ⟨hm, hmb⟩, hf⟩ := h.parts_seq ha hb
    obtain ⟨hslipe, hslipf⟩ := hslips.through (he.block ha hmb) hf.le
    rcases Bool.and_eq_false_iff.1 hnull with hnull | hnull
    · exact ihe he ha hmb hwf.1 hnull hslipe
    · exact ihf hf hm hb hwf.2 hnull hslipf
  | alt e f ihe ihf =>
    obtain ⟨m, o, o', ⟨hsplit, htarget⟩, ⟨hfirst, he⟩, ⟨hm, hmb, hjump, -⟩, hlast, hf⟩ :=
      h.parts_alt ha hb
    have hle := he.le
    have hle' := hf.le
    obtain ⟨hnulle, hnullf⟩ := Bool.or_eq_false_iff.1 hnull
    rcases hslips.first with heq | ⟨x, hx, hslips⟩
    · omega
    · rcases (hx.eq_or hsplit).2 with rfl | ⟨hx, -⟩
      · exact ihe he hfirst hmb hwf.1 hnulle (hslips.through (he.block hfirst hmb) (by omega)).1
      · obtain rfl : x = m + 4 := (List.mem_singleton.1 hx).trans htarget
        exact ihf hf hlast hb hwf.2 hnullf hslips
  | capture index e ih =>
    obtain ⟨m, hopen, ⟨hfirst, he⟩, ⟨hm, hmb, -⟩, rfl⟩ := h.parts_capture ha hb
    have hle := he.le
    rcases hslips.first with heq | ⟨x, hx, hslips⟩
    · omega
    · obtain rfl : x = a + 3 := (hx.eq_or hopen).2.resolve_right fun h => nomatch h.1
      exact ih he hfirst hmb hwf.2 hnull
        (hslips.through (he.block hfirst hmb) (Nat.le_add_right m 3)).1
  | repetition e q ih =>
    obtain ⟨n, m, ⟨hloop, hafter⟩, ⟨hfirst, he⟩, hmb, -⟩ := h.parts_repetition ha hb
    obtain ⟨hbody, -, -, hwf⟩ := hwf
    have hlt := (e.toLoop q n).lt_after a
    have hm := Nat.lt_of_le_of_lt hmb hb
    rcases hslips.first with heq | ⟨x, hx, hslips⟩
    · omega
    · rcases (hx.eq_or hloop).2 with rfl | ⟨-, hskip⟩
      · exact ih he hfirst hm hwf hbody (hslips.through (he.block hfirst hm) hmb).1
      · -- The loop may be skipped only if it need not iterate.
        have hmin : q.min = 0 := hskip _ rfl
        simp [nullable, hmin] at hnull

end BoundedRegex
