import BoundedRegex.Proofs.Code.Generation
import BoundedRegex.Proofs.Code.Validation

/-!
# How loops nest in the code of an expression

Sound code may jump into the body of a loop from anywhere.  The code of an expression does not: it
is a *block* (`Program.Block`), in which each loop is entered at its first instruction and left
behind its last one (`Expr.LaidOut.block`).
-/

namespace BoundedRegex

namespace Program

variable {p : Program}

/-! ### Instructions do not overlap -/

/-- An instruction that starts behind another one starts behind all of it. -/
theorem Starts.add_le {a x size : Nat} {i : Instr} (ha : p.Starts a) (hx : p.Starts x)
    (hf : p.fetch? a = some (i, size)) (hlt : a < x) : a + size ≤ x := by
  induction x using Nat.strongRecOn generalizing a size i with
  | ind x ih =>
    cases hx with
    | zero => cases hlt
    | @next y j size' hy hf' hy' =>
      have hpos := length_of_fetch? hf'
      rcases Nat.lt_trichotomy a y with h | rfl | h
      · exact Nat.le_trans (ih y (by omega) ha hy hf h) (Nat.le_add_right ..)
      · cases hf.symm.trans hf'
        exact Nat.le_refl _
      · -- The instruction at `y` would reach beyond the start of the one at `a`.
        have hle := ih a hlt hy ha hf' h
        omega

/-- So does one that is another instruction, wherever it starts from there on. -/
theorem Starts.add_le_of_ne {a x size size' : Nat} {i j : Instr} (ha : p.Starts a)
    (hx : p.Starts x) (hf : p.fetch? a = some (i, size)) (hf' : p.fetch? x = some (j, size'))
    (hij : i ≠ j) (hle : a ≤ x) : a + size ≤ x := by
  rcases Nat.eq_or_lt_of_le hle with rfl | hlt
  · cases hf.symm.trans hf'
    exact absurd rfl hij
  · exact ha.add_le hx hf hlt

end Program

/-! ### Where instructions lead -/

/-- Where an instruction may lead but to the next one: to its target, or behind its loop. -/
def Instr.targets (a : Nat) : Instr → List Nat
  | split offset | jump offset | loopEnd offset => [offsetTarget a offset]
  | loop l => [l.after a]
  | _ => []

theorem Leaf.targets_instr (l : Leaf) (a : Nat) : l.instr.targets a = [] := by
  have hsingle := l.isSingleByte_instr
  cases hinstr : l.instr with
  | split | jump | loop | loopEnd =>
    rw [hinstr] at hsingle
    cases hsingle
  | _ => rfl

theorem Anchor.targets_instr (x : Anchor) (a : Nat) : x.instr.targets a = [] := by
  cases x <;> rfl

namespace Program

variable {p : Program} {a m b x size : Nat}

/-- The instruction at an address may lead to another address. -/
def Flows (p : Program) (a x : Nat) : Prop :=
  ∃ i size, p.fetch? a = some (i, size) ∧ (x = a + size ∨ x ∈ i.targets a)

theorem Flows.eq_or {i : Instr} (h : p.Flows a x) (hf : p.fetch? a = some (i, size)) :
    x = a + size ∨ x ∈ i.targets a := by
  obtain ⟨i', size', hf', h⟩ := h
  cases hf.symm.trans hf'
  exact h

/-- An address is inside a loop: behind its first instruction, and before the code that follows
it. -/
structure Inside (p : Program) (c : Nat) (l : Loop) (a : Nat) : Prop where
  starts : p.Starts c
  fetch : ∃ size, p.fetch? c = some (.loop l, size)
  lt : c < a
  lt_after : a < l.after c

/-- An iteration ends inside its loop. -/
theorem Sound.inside_loopEnd (hp : p.Sound) {offset : Int16} {l : Loop} {n : Nat}
    (ha : p.Starts a) (hend : p.fetch? a = some (.loopEnd offset, n))
    (hf : p.fetch? (offsetTarget a offset) = some (.loop l, size)) :
    p.Inside (offsetTarget a offset) l a := by
  obtain ⟨l', size', hstarts, hf', -, hafter⟩ := hp.loopEnd ha hend
  cases hf.symm.trans hf'
  refine ⟨hstarts, ⟨size, hf⟩, Nat.lt_of_not_le fun hle => ?_, by omega⟩
  have hbehind := ha.add_le_of_ne hstarts hend hf nofun hle
  have hlt := l.lt_after (offsetTarget a offset)
  rw [size_of_loopEnd hend] at hbehind
  omega

/-- Code between two addresses leads nowhere else, its loops end in it, and it leads into no loop in
it but from the loop and from inside. -/
structure Block (p : Program) (a b : Nat) : Prop where
  le : a ≤ b
  flows {x x' : Nat} (hx : p.Starts x) (ha : a ≤ x) (hb : x < b) (h : p.Flows x x') :
    a ≤ x' ∧ x' ≤ b
  loops {c size : Nat} {l : Loop} (hc : p.Starts c) (ha : a ≤ c) (hb : c < b)
    (hf : p.fetch? c = some (.loop l, size)) : l.after c ≤ b
  inside {x x' c : Nat} {l : Loop} (hx : p.Starts x) (ha : a ≤ x) (hb : x < b)
    (h : p.Flows x x') (hc : p.Inside c l x') (hca : a ≤ c) : c ≤ x ∧ x < l.after c

namespace Block

/-- An instruction by itself that leads only to the next one. -/
theorem one {i : Instr} (ha : p.Starts a) (hf : p.fetch? a = some (i, size))
    (hi : i.targets a = []) : p.Block a (a + size) := by
  have heq {x : Nat} (hx : p.Starts x) (hax : a ≤ x) (hxb : x < a + size) : x = a := by
    rcases Nat.eq_or_lt_of_le hax with rfl | hlt
    · rfl
    · have := ha.add_le hx hf hlt
      omega
  have hloop {c size' : Nat} {l : Loop} (hc : p.Starts c) (hac : a ≤ c) (hcb : c < a + size)
      (hf' : p.fetch? c = some (.loop l, size')) : False := by
    obtain rfl := heq hc hac hcb
    cases hf.symm.trans hf'
    cases hi
  have hnext {x : Nat} (h : p.Flows a x) : x = a + size :=
    (h.eq_or hf).resolve_right (by rw [hi]; exact List.not_mem_nil)
  refine ⟨Nat.le_add_right .., fun hx hax hxb h => ?_, fun hc hac hcb hf' => ?_,
    fun hx hax hxb h hc hac => ?_⟩
  · obtain rfl := heq hx hax hxb
    rw [hnext h]
    exact ⟨Nat.le_add_right .., Nat.le_refl _⟩
  · exact (hloop hc hac hcb hf').elim
  · obtain rfl := heq hx hax hxb
    obtain ⟨size', hf'⟩ := hc.fetch
    have hlt := hc.lt
    rw [hnext h] at hlt
    exact (hloop hc.starts hac hlt hf').elim

/-- One block after another. -/
theorem append (h : p.Block a m) (h' : p.Block m b) : p.Block a b := by
  have hle := h.le
  have hle' := h'.le
  refine ⟨Nat.le_trans hle hle', fun {x x'} hx hax hxb hflow => ?_, fun hc hac hcb hf => ?_,
    fun {x x' c l} hx hax hxb hflow hc hac => ?_⟩
  · rcases Nat.lt_or_ge x m with hxm | hxm
    · have := h.flows hx hax hxm hflow
      omega
    · have := h'.flows hx hxm hxb hflow
      omega
  · rcases Nat.lt_or_ge _ m with hcm | hcm
    · exact Nat.le_trans (h.loops hc hac hcm hf) hle'
    · exact h'.loops hc hcm hcb hf
  · have hlt := hc.lt
    have hlt' := hc.lt_after
    rcases Nat.lt_or_ge x m with hxm | hxm
    · exact h.inside hx hax hxm hflow hc hac
    · have hge := h'.flows hx hxm hxb hflow
      rcases Nat.lt_or_ge c m with hcm | hcm
      · -- What the second block leads to is behind every loop of the first.
        obtain ⟨size, hf⟩ := hc.fetch
        have := h.loops hc.starts hac hcm hf
        omega
      · exact h'.inside hx hxm hxb hflow hc hcm

/-- Two alternatives: a split, the first of them, a jump behind the second, and that. -/
theorem alternatives {o o' : Int16} (ha : p.Starts a) (hsplit : p.fetch? a = some (.split o, 4))
    (htarget : offsetTarget a o = m + 4) (h : p.Block (a + 4) m) (hm : p.Starts m)
    (hjump : p.fetch? m = some (.jump o', 4)) (htarget' : offsetTarget m o' = b)
    (h' : p.Block (m + 4) b) : p.Block a b := by
  have hle := h.le
  have hle' := h'.le
  have hcases {x : Nat} (hx : p.Starts x) (hax : a ≤ x) :
      x = a ∨ (a + 4 ≤ x ∧ x < m) ∨ x = m ∨ m + 4 ≤ x := by
    have hfirst := ha.add_le hx hsplit
    have hlast := hm.add_le hx hjump
    omega
  have hflow {x x' : Nat} (hx : p.Starts x) (hax : a ≤ x) (hxb : x < b) (h₀ : p.Flows x x') :
      (x = a ∧ (x' = a + 4 ∨ x' = m + 4)) ∨ (a + 4 ≤ x ∧ x < m ∧ a + 4 ≤ x' ∧ x' ≤ m) ∨
        (x = m ∧ (x' = m + 4 ∨ x' = b)) ∨ (m + 4 ≤ x ∧ m + 4 ≤ x' ∧ x' ≤ b) := by
    rcases hcases hx hax with rfl | ⟨hge, hlt⟩ | rfl | hge
    · have := h₀.eq_or hsplit
      simp only [Instr.targets, List.mem_singleton, htarget] at this
      omega
    · have := h.flows hx hge hlt h₀
      omega
    · have := h₀.eq_or hjump
      simp only [Instr.targets, List.mem_singleton, htarget'] at this
      omega
    · have := h'.flows hx hge hxb h₀
      omega
  have hloop {c size : Nat} {l : Loop} (hc : p.Starts c) (hac : a ≤ c) (hcb : c < b)
      (hf : p.fetch? c = some (.loop l, size)) :
      (a + 4 ≤ c ∧ c < m ∧ l.after c ≤ m) ∨ (m + 4 ≤ c ∧ l.after c ≤ b) := by
    rcases hcases hc hac with rfl | ⟨hge, hlt⟩ | rfl | hge
    · cases hsplit.symm.trans hf
    · exact Or.inl ⟨hge, hlt, h.loops hc hge hlt hf⟩
    · cases hjump.symm.trans hf
    · exact Or.inr ⟨hge, h'.loops hc hge hcb hf⟩
  refine ⟨by omega, fun hx hax hxb h₀ => ?_, fun hc hac hcb hf => ?_,
    fun {x x' c l} hx hax hxb h₀ hc hac => ?_⟩
  · have := hflow hx hax hxb h₀
    omega
  · have := hloop hc hac hcb hf
    omega
  · obtain ⟨size, hf⟩ := hc.fetch
    have hlt := hc.lt
    have hlt' := hc.lt_after
    have hwhere := hflow hx hax hxb h₀
    rcases hloop hc.starts hac (by omega) hf with ⟨hge, hlt, hle⟩ | ⟨hge, hle⟩
    · exact h.inside hx (by omega) (by omega) h₀ hc hge
    · exact h'.inside hx (by omega) hxb h₀ hc hge

/-- A loop, with the instruction that ends an iteration, if any, behind its body. -/
theorem loop {l : Loop} (ha : p.Starts a) (hloop : p.fetch? a = some (.loop l, 7))
    (hafter : l.after a = b) (h : p.Block (Loop.body a) m) (hmb : m ≤ b)
    (hend : ∀ x, p.Starts x → m ≤ x → x < b →
      ∃ o, p.fetch? x = some (.loopEnd o, 4) ∧ offsetTarget x o = a ∧ x + 4 = b) :
    p.Block a b := by
  have hle := h.le
  have hbody : Loop.body a = a + 7 := rfl
  have hcases {x : Nat} (hx : p.Starts x) (hax : a ≤ x) :
      x = a ∨ (Loop.body a ≤ x ∧ x < m) ∨ m ≤ x := by
    have hfirst := ha.add_le hx hloop
    omega
  have hflow {x x' : Nat} (hx : p.Starts x) (hax : a ≤ x) (hxb : x < b) (h₀ : p.Flows x x') :
      (x = a ∧ (x' = Loop.body a ∨ x' = b)) ∨
        (Loop.body a ≤ x ∧ x < m ∧ Loop.body a ≤ x' ∧ x' ≤ m) ∨
        (m ≤ x ∧ (x' = a ∨ x' = b)) := by
    rcases hcases hx hax with rfl | ⟨hge, hlt⟩ | hge
    · have := h₀.eq_or hloop
      simp only [Instr.targets, List.mem_singleton, hafter] at this
      omega
    · have := h.flows hx hge hlt h₀
      omega
    · obtain ⟨o, hf, htarget, hsize⟩ := hend x hx hge hxb
      have := h₀.eq_or hf
      simp only [Instr.targets, List.mem_singleton, htarget] at this
      omega
  have hinner {c size : Nat} {l' : Loop} (hc : p.Starts c) (hac : a ≤ c) (hcb : c < b)
      (hf : p.fetch? c = some (.loop l', size)) :
      (c = a ∧ l'.after c = b) ∨ (Loop.body a ≤ c ∧ c < m ∧ l'.after c ≤ m) := by
    rcases hcases hc hac with rfl | ⟨hge, hlt⟩ | hge
    · cases hloop.symm.trans hf
      exact Or.inl ⟨rfl, hafter⟩
    · exact Or.inr ⟨hge, hlt, h.loops hc hge hlt hf⟩
    · obtain ⟨o, hf', -⟩ := hend c hc hge hcb
      cases hf.symm.trans hf'
  refine ⟨by omega, fun hx hax hxb h₀ => ?_, fun hc hac hcb hf => ?_,
    fun {x x' c l'} hx hax hxb h₀ hc hac => ?_⟩
  · have := hflow hx hax hxb h₀
    omega
  · have := hinner hc hac hcb hf
    omega
  · obtain ⟨size, hf⟩ := hc.fetch
    have hlt := hc.lt
    have hlt' := hc.lt_after
    have hwhere := hflow hx hax hxb h₀
    rcases hinner hc.starts hac (by omega) hf with ⟨rfl, hafter'⟩ | ⟨hge, hlt, hle⟩
    · omega
    · exact h.inside hx (by omega) (by omega) h₀ hc hge

end Block

end Program

namespace Expr

variable {p : Program} {e : Expr} {a b : Nat}

/-- An instruction starts behind the code of an expression, if one starts where that begins and the
code goes on. -/
theorem LaidOut.starts (h : e.LaidOut p a b) (ha : p.Starts a) (hb : b < p.code.length) :
    p.Starts b := by
  induction e generalizing a b with
  | leaf | anchor =>
    obtain ⟨n, hf, rfl⟩ := h
    exact .next ha hf hb
  | seq e f ihe ihf =>
    obtain ⟨m, he, hf⟩ := h
    exact ihf hf (ihe he ha (Nat.lt_of_le_of_lt hf.le hb)) hb
  | alt e f ihe ihf =>
    obtain ⟨m, o, o', hsplit, -, he, hjump, -, hf⟩ := h
    have hle := he.le
    have hle' := hf.le
    have hm := ihe he (.next ha hsplit (by omega)) (by omega)
    exact ihf hf (.next hm hjump (by omega)) hb
  | capture index e ih =>
    obtain ⟨m, hopen, he, hclose, rfl⟩ := h
    have hle := he.le
    exact .next (ih he (.next ha hopen (by omega)) (by omega)) hclose hb
  | repetition e q ih =>
    obtain ⟨n, hloop, hafter, hbody⟩ := h
    have hle : Loop.body a ≤ b := hafter ▸ Nat.le_add_right ..
    have hfirst : p.Starts (Loop.body a) := .next ha hloop (Nat.lt_of_le_of_lt hle hb)
    split at hbody
    · exact ih hbody hfirst hb
    · obtain ⟨m, o, he, hend, -, rfl⟩ := hbody
      exact .next (ih he hfirst (by omega)) hend hb

/-! ### The parts of an expression -/

namespace LaidOut

variable {f : Expr} {index : UInt8} {q : Quantifier} (ha : p.Starts a) (hb : b < p.code.length)
include ha hb

/-- The second part of a sequence starts where the first ends. -/
theorem parts_seq (h : (seq e f).LaidOut p a b) :
    ∃ m, e.LaidOut p a m ∧ (p.Starts m ∧ m < p.code.length) ∧ f.LaidOut p m b := by
  obtain ⟨m, he, hf⟩ := h
  have hm := Nat.lt_of_le_of_lt hf.le hb
  exact ⟨m, he, ⟨he.starts ha hm, hm⟩, hf⟩

/-- The first alternative starts behind the split, and the second behind the jump. -/
theorem parts_alt (h : (alt e f).LaidOut p a b) :
    ∃ m o o', (p.fetch? a = some (.split o, 4) ∧ offsetTarget a o = m + 4) ∧
      (p.Starts (a + 4) ∧ e.LaidOut p (a + 4) m) ∧
      (p.Starts m ∧ m < p.code.length ∧ p.fetch? m = some (.jump o', 4) ∧
        offsetTarget m o' = b) ∧
      p.Starts (m + 4) ∧ f.LaidOut p (m + 4) b := by
  obtain ⟨m, o, o', hsplit, htarget, he, hjump, htarget', hf⟩ := h
  have hle := he.le
  have hle' := hf.le
  have hfirst : p.Starts (a + 4) := .next ha hsplit (by omega)
  have hm := he.starts hfirst (by omega)
  exact ⟨m, o, o', ⟨hsplit, htarget⟩, ⟨hfirst, he⟩, ⟨hm, by omega, hjump, htarget'⟩,
    .next hm hjump (by omega), hf⟩

/-- The inside of a capture starts behind the instruction that opens it, and ends where the one
starts that closes it. -/
theorem parts_capture (h : (capture index e).LaidOut p a b) :
    ∃ m, p.fetch? a = some (.captureStart index, 3) ∧
      (p.Starts (a + 3) ∧ e.LaidOut p (a + 3) m) ∧
      (p.Starts m ∧ m < p.code.length ∧ p.fetch? m = some (.captureEnd index, 3)) ∧
      b = m + 3 := by
  obtain ⟨m, hopen, he, hclose, rfl⟩ := h
  have hle := he.le
  have hfirst : p.Starts (a + 3) := .next ha hopen (by omega)
  exact ⟨m, hopen, ⟨hfirst, he⟩, ⟨he.starts hfirst (by omega), by omega, hclose⟩, rfl⟩

/-- The body of a loop starts behind the loop, and behind the body there is the instruction that
ends an iteration, or nothing. -/
theorem parts_repetition (h : (repetition e q).LaidOut p a b) :
    ∃ n m, (p.fetch? a = some (.loop (e.toLoop q n), 7) ∧ (e.toLoop q n).after a = b) ∧
      (p.Starts (Loop.body a) ∧ e.LaidOut p (Loop.body a) m) ∧ m ≤ b ∧
      ∀ x, p.Starts x → m ≤ x → x < b →
        ∃ o, p.fetch? x = some (.loopEnd o, 4) ∧ offsetTarget x o = a ∧ x + 4 = b := by
  obtain ⟨n, hloop, hafter, hbody⟩ := h
  have hle : Loop.body a ≤ b := hafter ▸ Nat.le_add_right ..
  have hfirst : p.Starts (Loop.body a) := .next ha hloop (Nat.lt_of_le_of_lt hle hb)
  split at hbody
  · exact ⟨n, b, ⟨hloop, hafter⟩, ⟨hfirst, hbody⟩, Nat.le_refl b,
      fun x _ hge hlt => absurd hlt (Nat.not_lt_of_le hge)⟩
  · obtain ⟨m, o, he, hend, htarget, rfl⟩ := hbody
    have hm := he.starts hfirst (by omega)
    refine ⟨n, m, ⟨hloop, hafter⟩, ⟨hfirst, he⟩, Nat.le_add_right m 4, ?_⟩
    intro x hx hge hlt
    rcases Nat.eq_or_lt_of_le hge with rfl | hmx
    · exact ⟨o, hend, htarget, rfl⟩
    · have := hm.add_le hx hend hmx
      omega

end LaidOut

/-- **The code of an expression is a block.** -/
theorem LaidOut.block (h : e.LaidOut p a b) (ha : p.Starts a) (hb : b < p.code.length) :
    p.Block a b := by
  induction e generalizing a b with
  | leaf l =>
    obtain ⟨n, hf, rfl⟩ := h
    exact .one ha hf (l.targets_instr a)
  | anchor x =>
    obtain ⟨n, hf, rfl⟩ := h
    exact .one ha hf (x.targets_instr a)
  | seq e f ihe ihf =>
    obtain ⟨m, he, ⟨hm, hmb⟩, hf⟩ := h.parts_seq ha hb
    exact (ihe he ha hmb).append (ihf hf hm hb)
  | alt e f ihe ihf =>
    obtain ⟨m, o, o', ⟨hsplit, htarget⟩, ⟨hfirst, he⟩, ⟨hm, hmb, hjump, htarget'⟩, hlast, hf⟩ :=
      h.parts_alt ha hb
    exact .alternatives ha hsplit htarget (ihe he hfirst hmb) hm hjump htarget' (ihf hf hlast hb)
  | capture index e ih =>
    obtain ⟨m, hopen, ⟨hfirst, he⟩, ⟨hm, hmb, hclose⟩, rfl⟩ := h.parts_capture ha hb
    have hopening := Program.Block.one ha hopen rfl
    have hclosing := Program.Block.one hm hclose rfl
    exact (hopening.append (ih he hfirst hmb)).append hclosing
  | repetition e q ih =>
    obtain ⟨n, m, ⟨hloop, hafter⟩, ⟨hfirst, he⟩, hmb, hend⟩ := h.parts_repetition ha hb
    exact .loop ha hloop hafter (ih he hfirst (Nat.lt_of_le_of_lt hmb hb)) hmb hend

end Expr

end BoundedRegex
