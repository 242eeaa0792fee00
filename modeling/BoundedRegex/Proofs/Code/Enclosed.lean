import BoundedRegex.Proofs.Code.Closing

/-!
# Where the code of an expression leads out of a loop

The code inside a loop of several instructions leads out of it in one place, which is the
instruction that ends an iteration, and it does not accept (`Program.Enclosed`,
`Expr.enclosed_code`).
-/

namespace BoundedRegex

namespace Expr

variable {p : Program} {e : Expr} {a b c size : Nat} {l : Loop}

/-- The body of a loop of several instructions is a block, behind which an iteration ends. -/
theorem LaidOut.body_block (h : e.LaidOut p a b) (ha : p.Starts a) (hb : b < p.code.length)
    (hc : p.Starts c) (hac : a ≤ c) (hcb : c < b) (hf : p.fetch? c = some (.loop l, size))
    (hsingle : l.singleByte = false) :
    ∃ m o, p.Block (Loop.body c) m ∧ (p.Starts m ∧ p.fetch? m = some (.loopEnd o, 4)) ∧
      offsetTarget m o = c ∧ l.after c = m + 4 := by
  induction e generalizing a b with
  | leaf x =>
    obtain ⟨n, hleaf, rfl⟩ := h
    have hne : x.instr ≠ .loop l := by
      intro hinstr
      have hbyte := x.isSingleByte_instr
      rw [hinstr] at hbyte
      cases hbyte
    exact absurd hcb (Nat.not_lt.2 (ha.add_le_of_ne hc hleaf hf hne hac))
  | anchor x =>
    obtain ⟨n, hanchor, rfl⟩ := h
    have hne : x.instr ≠ .loop l := by
      intro hinstr
      cases x <;> cases hinstr
    exact absurd hcb (Nat.not_lt.2 (ha.add_le_of_ne hc hanchor hf hne hac))
  | seq e f ihe ihf =>
    obtain ⟨m, he, ⟨hm, hmb⟩, hf'⟩ := h.parts_seq ha hb
    rcases Nat.lt_or_ge c m with hlt | hge
    · exact ihe he ha hmb hac hlt
    · exact ihf hf' hm hb hge hcb
  | alt e f ihe ihf =>
    obtain ⟨m, o, o', ⟨hsplit, -⟩, ⟨hfirst, he⟩, ⟨hm, hmb, hjump, -⟩, hlast, hf'⟩ :=
      h.parts_alt ha hb
    have hac := ha.add_le_of_ne hc hsplit hf nofun hac
    rcases Nat.lt_or_ge c m with hlt | hge
    · exact ihe he hfirst hmb hac hlt
    · exact ihf hf' hlast hb (hm.add_le_of_ne hc hjump hf nofun hge) hcb
  | capture index e ih =>
    obtain ⟨m, hopen, ⟨hfirst, he⟩, ⟨hm, hmb, hclose⟩, rfl⟩ := h.parts_capture ha hb
    have hac := ha.add_le_of_ne hc hopen hf nofun hac
    rcases Nat.lt_or_ge c m with hlt | hge
    · exact ih he hfirst hmb hac hlt
    · exact absurd hcb (Nat.not_lt.2 (hm.add_le_of_ne hc hclose hf nofun hge))
  | repetition e q ih =>
    rcases Nat.eq_or_lt_of_le hac with rfl | hlt
    · obtain ⟨n, hloop, hafter, hbody⟩ := h
      cases hf.symm.trans hloop
      have hleaf : e.isLeaf = false := hsingle
      rw [hleaf, if_neg Bool.false_ne_true] at hbody
      obtain ⟨m, o, he, hend, htarget, rfl⟩ := hbody
      have hle := he.le
      have hm : m < p.code.length := Nat.lt_of_le_of_lt (Nat.le_add_right ..) hb
      have hfirst : p.Starts (Loop.body a) := .next ha hloop (Nat.lt_of_le_of_lt hle hm)
      exact ⟨m, o, he.block hfirst hm, ⟨he.starts hfirst hm, hend⟩, htarget, hafter⟩
    · obtain ⟨n, m, ⟨hloop, -⟩, ⟨hfirst, he⟩, hmb, hend⟩ := h.parts_repetition ha hb
      rcases Nat.lt_or_ge c m with hcm | hge
      · exact ih he hfirst (Nat.lt_of_le_of_lt hmb hb) (ha.add_le hc hloop hlt) hcm
      · obtain ⟨o, hf', -⟩ := hend c hc hge hcb
        cases hf.symm.trans hf'

end Expr

namespace Program

/-- Loops of several instructions enclose their code, which is not empty: it leads nowhere else but
from the last instruction of the loop, which ends an iteration, and nothing in it accepts. -/
structure Enclosed (p : Program) : Prop where
  begins {c size : Nat} {l : Loop} (hc : p.Starts c) (hf : p.fetch? c = some (.loop l, size))
    (hsingle : l.singleByte = false) : p.Inside c l (Loop.body c)
  stays {x x' c : Nat} {l : Loop} (hx : p.Starts x) (hc : p.Inside c l x)
    (hsingle : l.singleByte = false) (hne : x + 4 ≠ l.after c) (h : p.Flows x x') : p.Inside c l x'
  ends {x c size : Nat} {l : Loop} {i : Instr} (hx : p.Starts x) (hc : p.Inside c l x)
    (hsingle : l.singleByte = false) (heq : x + 4 = l.after c)
    (hf : p.fetch? x = some (i, size)) : ∃ offset, i = .loopEnd offset ∧ offsetTarget x offset = c
  accepts {x c size : Nat} {l : Loop} (hx : p.Starts x) (hc : p.Inside c l x)
    (hsingle : l.singleByte = false) : p.fetch? x ≠ some (.accept, size)

end Program

/-- **The loops of an expression enclose their code.** -/
theorem Expr.enclosed_code {p : Program} {e : Expr} {captures : Nat}
    (hcode : p.code = e.code ++ Instr.accept.encode) (hlen : p.code.length ≤ maxCodeLength)
    (hadmissible : p.Admissible captures) : p.Enclosed := by
  obtain ⟨hlaid, haccept, hlength, hzero⟩ := laidOut_of_code hcode hlen
  have hlt : e.code.length < p.code.length := by omega
  have hend := hlaid.starts hzero hlt
  have hloop {c size : Nat} {l : Loop} (hc : p.Starts c) (hf : p.fetch? c = some (.loop l, size))
      (hsingle : l.singleByte = false) : ∃ m o, p.Block (Loop.body c) m ∧
        (p.Starts m ∧ p.fetch? m = some (.loopEnd o, 4)) ∧ offsetTarget m o = c ∧
        l.after c = m + 4 := by
    have hcb : c < e.code.length := by
      refine Nat.lt_of_not_le fun hle => ?_
      have hbehind := hend.add_le_of_ne hc haccept hf nofun hle
      exact Nat.not_lt.2 hbehind (hlength ▸ hc.lt)
    exact hlaid.body_block hzero hlt hc (Nat.zero_le c) hcb hf hsingle
  have hbody {x c : Nat} {l : Loop} (hx : p.Starts x) (hc : p.Inside c l x)
      (hsingle : l.singleByte = false) : ∃ m o, p.Block (Loop.body c) m ∧
        (p.Starts m ∧ p.fetch? m = some (.loopEnd o, 4)) ∧ offsetTarget m o = c ∧
        l.after c = m + 4 ∧ Loop.body c ≤ x ∧ x ≤ m := by
    obtain ⟨size, hf⟩ := hc.fetch
    obtain ⟨m, o, hblock, ⟨hm, hlast⟩, htarget, hafter⟩ := hloop hc.starts hf hsingle
    have hfirst := hc.starts.add_le hx hf hc.lt
    rw [Program.size_of_loop hf] at hfirst
    refine ⟨m, o, hblock, ⟨hm, hlast⟩, htarget, hafter, hfirst, Nat.le_of_not_lt fun hmx => ?_⟩
    have hbehind := hm.add_le hx hlast hmx
    exact Nat.not_lt.2 hbehind (hafter ▸ hc.lt_after)
  refine ⟨fun {c size l} hc hf hsingle => ?_, fun {x x' c l} hx hc hsingle hne hflow => ?_,
    fun {x c size l i} hx hc hsingle heq hf => ?_, fun {x c size l} hx hc hsingle hf => ?_⟩
  · obtain ⟨m, o, hblock, -, -, hafter⟩ := hloop hc hf hsingle
    have hle := hblock.le
    exact ⟨hc, ⟨size, hf⟩, Loop.lt_body c, by omega⟩
  · obtain ⟨m, o, hblock, -, -, hafter, hfirst, hle⟩ := hbody hx hc hsingle
    have hxm : x < m := Nat.lt_of_le_of_ne hle (by omega)
    obtain ⟨hge, hle'⟩ := hblock.flows hx hfirst hxm hflow
    exact ⟨hc.starts, hc.fetch, Nat.lt_of_lt_of_le (Loop.lt_body c) hge, by omega⟩
  · obtain ⟨m, o, -, ⟨-, hlast⟩, htarget, hafter, -, -⟩ := hbody hx hc hsingle
    obtain rfl : x = m := Nat.add_right_cancel (heq.trans hafter)
    cases hf.symm.trans hlast
    exact ⟨o, rfl, htarget⟩
  · obtain ⟨m, o, -, ⟨hm, hlast⟩, -, -, -, hle⟩ := hbody hx hc hsingle
    obtain ⟨i, n, hf', -, haccepts⟩ := hadmissible.admits hx
    cases hf.symm.trans hf'
    have hfinal := haccepts.1 rfl
    have hbefore := hx.add_le_of_ne hm hf hlast nofun hle
    exact Nat.not_lt.2 hbefore (hfinal ▸ hm.lt)

end BoundedRegex
