import BoundedRegex.Proofs.Code.Admission
import BoundedRegex.Proofs.Code.Generation

/-!
# The code of an expression can be loaded

A path leads from one address to another, from instruction to instruction.  Where a program has an
expression laid out, a path of instructions that may be run leads through its code
(`Expr.LaidOut.path`); with an instruction behind it that accepts and ends the program, that is all
that loading asks (`Program.admissible_of_path`).
-/

namespace BoundedRegex

/-! ### Paths -/

/-- A way from one address to another, instruction by instruction; `P` holds of each. -/
inductive Program.Path (p : Program) (P : Nat → Instr → Prop) : Nat → Nat → Prop where
  | refl (a : Nat) : Path p P a a
  | more {a b size : Nat} {i : Instr} (hf : p.fetch? a = some (i, size)) (h : P a i)
      (t : Path p P (a + size) b) : Path p P a b

namespace Program.Path

variable {p : Program} {P : Nat → Instr → Prop} {a b c : Nat}

theorem one {size : Nat} {i : Instr} (hf : p.fetch? a = some (i, size)) (h : P a i) :
    p.Path P a (a + size) :=
  .more hf h (.refl _)

theorem trans (h : p.Path P a b) (h' : p.Path P b c) : p.Path P a c := by
  induction h with
  | refl => exact h'
  | more hf hi _ ih => exact .more hf hi (ih h')

theorem le (h : p.Path P a b) : a ≤ b := by
  induction h with
  | refl => exact Nat.le_refl _
  | more _ _ _ ih => omega

/-- Where a path ends an instruction starts, if one starts where it begins and the code goes on. -/
theorem starts (h : p.Path P a b) (ha : p.Starts a) (hb : b < p.code.length) : p.Starts b := by
  induction h with
  | refl => exact ha
  | more hf _ t ih => exact ih (.next ha hf (Nat.lt_of_le_of_lt t.le hb)) hb

/-- All instructions stand on a path from the first of them to the last. -/
theorem of_starts (h : p.Path P 0 b) {i : Instr} {size : Nat} (hf : p.fetch? b = some (i, size))
    (hend : b + size = p.code.length) (ha : p.Starts a) : p.Path P a b := by
  induction ha with
  | zero => exact h
  | next _ hf' hlt ih =>
    cases ih with
    | refl =>
      cases hf.symm.trans hf'
      exact absurd hend (Nat.ne_of_lt hlt)
    | more hf'' _ t =>
      cases hf'.symm.trans hf''
      exact t

end Program.Path

/-- An instruction may be run, and is not the one that ends the code. -/
def Program.AdmitsInside (p : Program) (captures a : Nat) (i : Instr) : Prop :=
  p.Admits captures a i ∧ i ≠ .accept

/-- A program is admissible if a path of instructions that may be run leads from its start to one
that accepts and is the last. -/
theorem Program.admissible_of_path {p : Program} {captures b size : Nat}
    (h : p.Path (p.AdmitsInside captures) 0 b)
    (hf : p.fetch? b = some (.accept, size)) (hend : b + size = p.code.length) :
    p.Admissible captures := by
  have hsize := length_of_fetch? hf
  refine ⟨.zero (by omega), ?_⟩
  intro a ha
  cases h.of_starts hf hend ha with
  | refl => exact ⟨.accept, size, hf, trivial, iff_of_true rfl hend⟩
  | more hf' hi t =>
    have hle := t.le
    exact ⟨_, _, hf', hi.1, iff_of_false hi.2 (by omega)⟩

/-! ### Expressions -/

theorem Instr.admits_of_isSingleByte {p : Program} {captures a : Nat} {i : Instr}
    (hi : i.isSingleByte = true) : p.AdmitsInside captures a i := by
  cases i with
  | byte | anyByte | bitmap | ranges => exact ⟨trivial, nofun⟩
  | _ => cases hi

theorem Anchor.admits_instr {p : Program} {captures a : Nat} (x : Anchor) :
    p.AdmitsInside captures a x.instr := by
  cases x <;> exact ⟨trivial, nofun⟩

/-- An offset to a place further on in the code is positive. -/
theorem pos_of_lt_offsetTarget {a : Nat} {offset : Int16} (h : a < offsetTarget a offset)
    (hle : offsetTarget a offset ≤ maxCodeLength) : 0 < offset := by
  have hlow := offset.le_toInt
  rw [offsetTarget] at h hle
  rw [maxCodeLength] at hle
  have hpos : 0 < offset.toInt := by omega
  exact Int16.lt_iff_toInt_lt.2 hpos

/-- An offset to a place further back is negative. -/
theorem neg_of_offsetTarget_lt {a : Nat} {offset : Int16} (h : offsetTarget a offset < a)
    (ha : a ≤ maxCodeLength) : offset < 0 := by
  have hhigh := offset.toInt_lt
  rw [offsetTarget] at h
  rw [maxCodeLength] at ha
  have hneg : offset.toInt < 0 := by omega
  exact Int16.lt_iff_toInt_lt.2 hneg

namespace Expr

/-- What the operands of the instructions of an expression can hold: captures in range, and lower
bounds that are counts. -/
structure Fits (captures : Nat) (e : Expr) : Prop where
  indices : ∀ i ∈ e.indices, i.toNat < captures
  quantifiers : ∀ q ∈ e.quantifiers, q.min ≠ unboundedCount

theorem Fits.of_subset {captures : Nat} {e f : Expr} (h : f.Fits captures)
    (hi : e.indices ⊆ f.indices) (hq : e.quantifiers ⊆ f.quantifiers) : e.Fits captures :=
  ⟨fun i h' => h.indices i (hi h'), fun q h' => h.quantifiers q (hq h')⟩

theorem Fits.mono {captures captures' : Nat} {e : Expr} (h : e.Fits captures)
    (hle : captures ≤ captures') : e.Fits captures' :=
  ⟨fun i hi => Nat.lt_of_lt_of_le (h.indices i hi) hle, h.quantifiers⟩

theorem inOrder_toLoop {e : Expr} {q : Quantifier} (hwf : (repetition e q).WellFormed)
    (hmin : q.min ≠ unboundedCount) (n : UInt16) : (e.toLoop q n).InOrder := by
  obtain ⟨-, hmax, hle, -⟩ := hwf
  refine ⟨fun h => ?_, hmin, hle.imp id UInt8.le_iff_toNat_le.2, fun h => ?_⟩
  · rw [show q.max = 0 from h] at hmax
    cases hmax
  · obtain ⟨hbound, hres⟩ := Bool.and_eq_true_iff.1 h
    refine ⟨?_, of_decide_eq_true hbound⟩
    cases hleaf : e.isLeaf with
    | false => exact hleaf
    | true =>
      rw [residual_of_isLeaf hleaf] at hres
      cases hres

variable {p : Program} {captures : Nat}

/-- A loop around a leaf has the instruction of the leaf for its body. -/
theorem LaidOut.hasBody {e : Expr} {l : Loop} {a b : Nat} (h : e.LaidOut p (Loop.body a) b)
    (hleaf : e.isLeaf = true) (hl : l.singleByte = true) (hafter : l.after a = b) :
    p.HasBody a l := by
  cases e with
  | leaf x =>
    obtain ⟨n, hf, rfl⟩ := h
    have hn : l.bodyLength.toNat = n := Nat.add_left_cancel hafter
    rw [Program.HasBody, if_pos hl, hn]
    exact ⟨x.instr, hf, x.isSingleByte_instr⟩
  | _ => cases hleaf

/-- A path leads through two alternatives, with a split before the first and a jump behind it. -/
theorem path_alternatives {a m b : Nat} {o o' : Int16} (hsplit : p.fetch? a = some (.split o, 4))
    (htarget : offsetTarget a o = m + 4) (he : p.Path (p.AdmitsInside captures) (a + 4) m)
    (hjump : p.fetch? m = some (.jump o', 4)) (htarget' : offsetTarget m o' = b)
    (hf : p.Path (p.AdmitsInside captures) (m + 4) b) (hlt : m + 4 < b) (hlast : p.Starts (m + 4))
    (hb : b < p.code.length) (hlen : p.code.length ≤ maxCodeLength) :
    p.Path (p.AdmitsInside captures) a b := by
  have hle := he.le
  have hsplits : p.Admits captures a (.split o) := by
    rw [Program.Admits, htarget]
    exact ⟨pos_of_lt_offsetTarget (a := a) (by omega) (by omega), hlast⟩
  have hjumps : p.Admits captures m (.jump o') := by
    rw [Program.Admits, htarget']
    exact ⟨pos_of_lt_offsetTarget (a := m) (by omega) (by omega), hf.starts hlast hb⟩
  exact .more hsplit ⟨hsplits, by simp⟩ (he.trans (.more hjump ⟨hjumps, by simp⟩ hf))

/-- A path leads through a loop, with the instruction that ends an iteration behind the body. -/
theorem path_loop {l : Loop} {a m : Nat} {o : Int16} (ha : p.Starts a)
    (hloop : p.fetch? a = some (.loop l, 7)) (horder : l.InOrder) (hsingle : l.singleByte = false)
    (he : p.Path (p.AdmitsInside captures) (Loop.body a) m) (hlt : Loop.body a < m)
    (hend : p.fetch? m = some (.loopEnd o, 4)) (htarget : offsetTarget m o = a)
    (hafter : l.after a = m + 4) (hb : m + 4 < p.code.length)
    (hlen : p.code.length ≤ maxCodeLength) : p.Path (p.AdmitsInside captures) a (m + 4) := by
  have hbody : Loop.body a = a + 7 := rfl
  have hfirst : p.Starts (a + 7) := .next ha hloop (by omega)
  have hm : p.Starts m := he.starts hfirst (by omega)
  have hloops : p.Admits captures a (.loop l) := by
    rw [Program.Admits, Program.HasBody, if_neg (by rw [hsingle]; exact Bool.false_ne_true), hafter]
    exact ⟨horder, hfirst, .next hm hend hb, hlt, hm, o, 4, hend, htarget⟩
  have hends : p.Admits captures m (.loopEnd o) := by
    rw [Program.Admits, htarget]
    exact ⟨neg_of_offsetTarget_lt (a := m) (by omega) (by omega), ha, l, 7, hloop, hsingle, hafter⟩
  exact .more hloop ⟨hloops, by simp⟩ (he.trans (.one hend ⟨hends, by simp⟩))

/-- **Where an expression is laid out, a path of instructions that may be run leads through it.** -/
theorem LaidOut.path {e : Expr} {a b : Nat} (h : e.LaidOut p a b) (hwf : e.WellFormed)
    (hfits : e.Fits captures) (ha : p.Starts a) (hb : b < p.code.length)
    (hlen : p.code.length ≤ maxCodeLength) :
    p.Path (p.AdmitsInside captures) a b ∧ a < b := by
  induction e generalizing a b with
  | leaf l =>
    obtain ⟨n, hf, rfl⟩ := h
    have hsize := Program.length_of_fetch? hf
    exact ⟨.one hf (Instr.admits_of_isSingleByte l.isSingleByte_instr), by omega⟩
  | anchor x =>
    obtain ⟨n, hf, rfl⟩ := h
    have hsize := Program.length_of_fetch? hf
    exact ⟨.one hf x.admits_instr, by omega⟩
  | seq e f ihe ihf =>
    obtain ⟨m, he, hf⟩ := h
    have hle := hf.le
    have hfitse : e.Fits captures :=
      hfits.of_subset (List.subset_append_left ..) (List.subset_append_left ..)
    have hfitsf : f.Fits captures :=
      hfits.of_subset (List.subset_append_right ..) (List.subset_append_right ..)
    obtain ⟨hpathe, hlt⟩ := ihe he hwf.1 hfitse ha (by omega)
    obtain ⟨hpathf, hlt'⟩ := ihf hf hwf.2 hfitsf (hpathe.starts ha (by omega)) hb
    exact ⟨hpathe.trans hpathf, by omega⟩
  | alt e f ihe ihf =>
    obtain ⟨m, o, o', hsplit, htarget, he, hjump, htarget', hf⟩ := h
    have hlee := he.le
    have hlef := hf.le
    have hfitse : e.Fits captures :=
      hfits.of_subset (List.subset_append_left ..) (List.subset_append_left ..)
    have hfitsf : f.Fits captures :=
      hfits.of_subset (List.subset_append_right ..) (List.subset_append_right ..)
    have hfirst : p.Starts (a + 4) := .next ha hsplit (by omega)
    obtain ⟨hpathe, hlt⟩ := ihe he hwf.1 hfitse hfirst (by omega)
    have hlast : p.Starts (m + 4) := .next (hpathe.starts hfirst (by omega)) hjump (by omega)
    obtain ⟨hpathf, hlt'⟩ := ihf hf hwf.2 hfitsf hlast hb
    exact ⟨path_alternatives hsplit htarget hpathe hjump htarget' hpathf hlt' hlast hb hlen,
      by omega⟩
  | capture index e ih =>
    obtain ⟨m, hopen, he, hclose, rfl⟩ := h
    have hle := he.le
    have hinner : e.Fits captures :=
      hfits.of_subset (List.subset_cons_self ..) (List.Subset.refl _)
    have hindex : index.toNat < captures := hfits.indices index List.mem_cons_self
    obtain ⟨hpath, hlt⟩ := ih he hwf.2 hinner (.next ha hopen (by omega)) (by omega)
    exact ⟨.more hopen ⟨hindex, by simp⟩ (hpath.trans (.one hclose ⟨hindex, by simp⟩)), by omega⟩
  | repetition e q ih =>
    obtain ⟨n, hloop, hafter, hbody⟩ := h
    have hinner : e.Fits captures :=
      hfits.of_subset (List.Subset.refl _) (List.subset_cons_self ..)
    have horder := inOrder_toLoop hwf (hfits.quantifiers q List.mem_cons_self) n
    have hlt : a < Loop.body a := Loop.lt_body a
    have hfirst : p.Starts (Loop.body a) := by
      have hle : Loop.body a ≤ b := hafter ▸ Nat.le_add_right ..
      exact .next ha hloop (Nat.lt_of_le_of_lt hle hb)
    cases hleaf : e.isLeaf with
    | true =>
      rw [hleaf, if_pos rfl] at hbody
      obtain ⟨hpath, hlt'⟩ := ih hbody hwf.2.2.2 hinner hfirst hb
      have hloops : p.Admits captures a (.loop (e.toLoop q n)) := by
        rw [Program.Admits, hafter]
        exact ⟨horder, hfirst, hpath.starts hfirst hb, hbody.hasBody hleaf hleaf hafter⟩
      exact ⟨.more hloop ⟨hloops, by simp⟩ hpath, by omega⟩
    | false =>
      rw [hleaf, if_neg Bool.false_ne_true] at hbody
      obtain ⟨m, o, he, hend, htarget, rfl⟩ := hbody
      have hle := he.le
      obtain ⟨hpath, hlt'⟩ := ih he hwf.2.2.2 hinner hfirst (by omega)
      exact ⟨path_loop ha hloop horder hleaf hpath hlt' hend htarget hafter hb hlen, by omega⟩

/-- The code of an expression with an instruction behind it that accepts is admissible. -/
theorem admissible_code {e : Expr} (hwf : e.WellFormed) (hfits : e.Fits captures)
    (hcode : p.code = e.code ++ Instr.accept.encode) (hlen : p.code.length ≤ maxCodeLength) :
    p.Admissible captures := by
  have hholds : p.Holds 0 (e.code ++ Instr.accept.encode) := ⟨[], [], by simpa using hcode, rfl⟩
  have hlaid := e.laidOut_of_holds hholds.left hlen
  have haccept := hholds.right.fetch?_eq trivial
  have hend : 0 + e.code.length + Instr.accept.encode.length = p.code.length := by
    rw [hcode, List.length_append, Nat.zero_add]
  have hsize := Program.length_of_fetch? haccept
  obtain ⟨hpath, -⟩ := hlaid.path hwf hfits (.zero (by omega)) (by omega) hlen
  exact Program.admissible_of_path hpath haccept hend

end Expr

end BoundedRegex
