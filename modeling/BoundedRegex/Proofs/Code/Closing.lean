import BoundedRegex.Proofs.Code.Admission
import BoundedRegex.Proofs.Code.Nesting

/-!
# Where the code of an expression closes captures

The instructions that close captures are found where the expression has them: each capture has one
(`Expr.LaidOut.closes_unique`), which stands inside a loop that may iterate more than once only if
the capture does (`Expr.LaidOut.mem_loopIndices`).

`Program.Structured` is what a program keeps to that holds the code of an expression
(`Expr.structured_code`), and its captures outside such loops are fixed (`Expr.fixed_of_not_mem`).
-/

namespace BoundedRegex

namespace Program

variable {p : Program} {a x size : Nat}

/-- The instruction that closes a capture stands at an address. -/
structure Closes (p : Program) (index : UInt8) (a : Nat) : Prop where
  starts : p.Starts a
  fetch : ∃ size, p.fetch? a = some (.captureEnd index, size)

/-- It stands behind every other instruction that starts before it. -/
theorem Closes.add_le {index : UInt8} {i : Instr} (hx : p.Closes index x) (ha : p.Starts a)
    (hf : p.fetch? a = some (i, size)) (hi : i ≠ .captureEnd index) (hle : a ≤ x) :
    a + size ≤ x := by
  obtain ⟨size', hf'⟩ := hx.fetch
  exact ha.add_le_of_ne hx.starts hf hf' hi hle

end Program

namespace Expr

variable {p : Program} {e : Expr} {a b : Nat}

/-! ### Where captures are closed -/

section

variable {index : UInt8} {x : Nat}

/-- In an alternation, captures are closed inside the alternatives. -/
theorem closes_alternatives {m : Nat} {o o' : Int16} (ha : p.Starts a)
    (hsplit : p.fetch? a = some (.split o, 4)) (hm : p.Starts m)
    (hjump : p.fetch? m = some (.jump o', 4)) (hx : p.Closes index x) (hax : a ≤ x) :
    (a + 4 ≤ x ∧ x < m) ∨ m + 4 ≤ x := by
  have hfirst := hx.add_le ha hsplit nofun hax
  rcases Nat.lt_or_ge x m with hlt | hge
  · exact Or.inl ⟨hfirst, hlt⟩
  · exact Or.inr (hx.add_le hm hjump nofun hge)

/-- In a capture they are closed inside it, and it is closed at its end. -/
theorem closes_capture {m : Nat} {i : UInt8} (ha : p.Starts a)
    (hopen : p.fetch? a = some (.captureStart i, 3)) (hm : p.Starts m)
    (hclose : p.fetch? m = some (.captureEnd i, 3)) (hx : p.Closes index x) (hax : a ≤ x)
    (hxb : x < m + 3) : (a + 3 ≤ x ∧ x < m) ∨ (x = m ∧ index = i) := by
  have hfirst := hx.add_le ha hopen nofun hax
  rcases Nat.lt_trichotomy x m with hlt | rfl | hgt
  · exact Or.inl ⟨hfirst, hlt⟩
  · obtain ⟨size, hf⟩ := hx.fetch
    cases hclose.symm.trans hf
    exact Or.inr ⟨rfl, rfl⟩
  · have := hm.add_le hx.starts hclose hgt
    omega

/-- In a repetition they are closed inside the body. -/
theorem closes_repetition {l : Loop} {m : Nat} (ha : p.Starts a)
    (hloop : p.fetch? a = some (.loop l, 7))
    (hend : ∀ x, p.Starts x → m ≤ x → x < b →
      ∃ o, p.fetch? x = some (.loopEnd o, 4) ∧ offsetTarget x o = a ∧ x + 4 = b)
    (hx : p.Closes index x) (hax : a ≤ x) (hxb : x < b) : Loop.body a ≤ x ∧ x < m := by
  refine ⟨hx.add_le ha hloop nofun hax, Nat.lt_of_not_le fun hge => ?_⟩
  obtain ⟨o, hf, -⟩ := hend x hx.starts hge hxb
  obtain ⟨size, hf'⟩ := hx.fetch
  cases hf.symm.trans hf'

theorem Leaf.instr_ne_captureEnd (l : Leaf) (index : UInt8) : l.instr ≠ .captureEnd index := by
  intro h
  have hsingle := l.isSingleByte_instr
  rw [h] at hsingle
  cases hsingle

/-- A capture that is closed in the code of an expression is one of its captures. -/
theorem LaidOut.mem_indices (h : e.LaidOut p a b) (ha : p.Starts a) (hb : b < p.code.length)
    (hx : p.Closes index x) (hax : a ≤ x) (hxb : x < b) : index ∈ e.indices := by
  induction e generalizing a b with
  | leaf l =>
    obtain ⟨n, hf, rfl⟩ := h
    have := hx.add_le ha hf (Leaf.instr_ne_captureEnd l index) hax
    omega
  | anchor y =>
    obtain ⟨n, hf, rfl⟩ := h
    have := hx.add_le ha hf (by cases y <;> nofun) hax
    omega
  | seq e f ihe ihf =>
    obtain ⟨m, he, ⟨hm, hmb⟩, hf⟩ := h.parts_seq ha hb
    rcases Nat.lt_or_ge x m with hlt | hge
    · exact List.mem_append_left _ (ihe he ha hmb hax hlt)
    · exact List.mem_append_right _ (ihf hf hm hb hge hxb)
  | alt e f ihe ihf =>
    obtain ⟨m, o, o', ⟨hsplit, -⟩, ⟨hfirst, he⟩, ⟨hm, hmb, hjump, -⟩, hlast, hf⟩ :=
      h.parts_alt ha hb
    rcases closes_alternatives ha hsplit hm hjump hx hax with ⟨hge, hlt⟩ | hge
    · exact List.mem_append_left _ (ihe he hfirst hmb hge hlt)
    · exact List.mem_append_right _ (ihf hf hlast hb hge hxb)
  | capture i e ih =>
    obtain ⟨m, hopen, ⟨hfirst, he⟩, ⟨hm, hmb, hclose⟩, rfl⟩ := h.parts_capture ha hb
    rcases closes_capture ha hopen hm hclose hx hax hxb with ⟨hge, hlt⟩ | ⟨-, rfl⟩
    · exact List.mem_cons_of_mem _ (ih he hfirst hmb hge hlt)
    · exact List.mem_cons_self
  | repetition e q ih =>
    obtain ⟨n, m, ⟨hloop, -⟩, ⟨hfirst, he⟩, hmb, hend⟩ := h.parts_repetition ha hb
    obtain ⟨hge, hlt⟩ := closes_repetition ha hloop hend hx hax hxb
    exact ih he hfirst (Nat.lt_of_le_of_lt hmb hb) hge hlt

/-- No capture is closed at two places, if no two captures share a number. -/
theorem LaidOut.closes_unique {y : Nat} (h : e.LaidOut p a b) (ha : p.Starts a)
    (hb : b < p.code.length) (hnodup : e.indices.Nodup) (hx : p.Closes index x) (hax : a ≤ x)
    (hxb : x < b) (hy : p.Closes index y) (hay : a ≤ y) (hyb : y < b) : x = y := by
  induction e generalizing a b with
  | leaf | anchor => cases h.mem_indices ha hb hx hax hxb
  | seq e f ihe ihf =>
    obtain ⟨m, he, ⟨hm, hmb⟩, hf⟩ := h.parts_seq ha hb
    obtain ⟨hnodupe, hnodupf, hdisjoint⟩ := List.nodup_append.1 hnodup
    rcases Nat.lt_or_ge x m with hxm | hxm <;> rcases Nat.lt_or_ge y m with hym | hym
    · exact ihe he ha hmb hnodupe hax hxm hay hym
    · exact absurd rfl
        (hdisjoint _ (he.mem_indices ha hmb hx hax hxm) _ (hf.mem_indices hm hb hy hym hyb))
    · exact absurd rfl
        (hdisjoint _ (he.mem_indices ha hmb hy hay hym) _ (hf.mem_indices hm hb hx hxm hxb))
    · exact ihf hf hm hb hnodupf hxm hxb hym hyb
  | alt e f ihe ihf =>
    obtain ⟨m, o, o', ⟨hsplit, -⟩, ⟨hfirst, he⟩, ⟨hm, hmb, hjump, -⟩, hlast, hf⟩ :=
      h.parts_alt ha hb
    obtain ⟨hnodupe, hnodupf, hdisjoint⟩ := List.nodup_append.1 hnodup
    rcases closes_alternatives ha hsplit hm hjump hx hax with ⟨hax, hxm⟩ | hxm <;>
      rcases closes_alternatives ha hsplit hm hjump hy hay with ⟨hay, hym⟩ | hym
    · exact ihe he hfirst hmb hnodupe hax hxm hay hym
    · exact absurd rfl
        (hdisjoint _ (he.mem_indices hfirst hmb hx hax hxm) _ (hf.mem_indices hlast hb hy hym hyb))
    · exact absurd rfl
        (hdisjoint _ (he.mem_indices hfirst hmb hy hay hym) _ (hf.mem_indices hlast hb hx hxm hxb))
    · exact ihf hf hlast hb hnodupf hxm hxb hym hyb
  | capture i e ih =>
    obtain ⟨m, hopen, ⟨hfirst, he⟩, ⟨hm, hmb, hclose⟩, rfl⟩ := h.parts_capture ha hb
    obtain ⟨hi, hnodupe⟩ := List.nodup_cons.1 hnodup
    rcases closes_capture ha hopen hm hclose hx hax hxb with ⟨hax, hxm⟩ | ⟨rfl, rfl⟩ <;>
      rcases closes_capture ha hopen hm hclose hy hay hyb with ⟨hay, hym⟩ | ⟨rfl, hindex⟩
    · exact ih he hfirst hmb hnodupe hax hxm hay hym
    · exact absurd (he.mem_indices hfirst hmb hx hax hxm) (hindex ▸ hi)
    · exact absurd (he.mem_indices hfirst hmb hy hay hym) hi
    · rfl
  | repetition e q ih =>
    obtain ⟨n, m, ⟨hloop, -⟩, ⟨hfirst, he⟩, hmb, hend⟩ := h.parts_repetition ha hb
    obtain ⟨hax, hxm⟩ := closes_repetition ha hloop hend hx hax hxb
    obtain ⟨hay, hym⟩ := closes_repetition ha hloop hend hy hay hyb
    exact ih he hfirst (Nat.lt_of_le_of_lt hmb hb) hnodup hax hxm hay hym

/-- A capture that is closed inside a loop which may iterate more than once is one of those that the
expression has inside such repetitions. -/
theorem LaidOut.mem_loopIndices {c : Nat} {l : Loop} (h : e.LaidOut p a b) (ha : p.Starts a)
    (hb : b < p.code.length) (hx : p.Closes index x) (hax : a ≤ x) (hxb : x < b)
    (hc : p.Inside c l x) (hac : a ≤ c) (hl : 1 < l.max) : index ∈ e.loopIndices := by
  have hcx := hc.lt
  have hxc := hc.lt_after
  obtain ⟨size, hf⟩ := hc.fetch
  induction e generalizing a b with
  | leaf | anchor => cases h.mem_indices ha hb hx hax hxb
  | seq e g ihe ihg =>
    obtain ⟨m, he, ⟨hm, hmb⟩, hg⟩ := h.parts_seq ha hb
    rcases Nat.lt_or_ge x m with hxm | hxm
    · exact List.mem_append_left _ (ihe he ha hmb hax hxm hac)
    · have hcm : m ≤ c := Nat.le_of_not_lt fun hlt => by
        have := (he.block ha hmb).loops hc.starts hac hlt hf
        omega
      exact List.mem_append_right _ (ihg hg hm hb hxm hxb hcm)
  | alt e g ihe ihg =>
    obtain ⟨m, o, o', ⟨hsplit, -⟩, ⟨hfirst, he⟩, ⟨hm, hmb, hjump, -⟩, hlast, hg⟩ :=
      h.parts_alt ha hb
    have hac : a + 4 ≤ c := ha.add_le_of_ne hc.starts hsplit hf nofun hac
    rcases closes_alternatives ha hsplit hm hjump hx hax with ⟨hax, hxm⟩ | hxm
    · exact List.mem_append_left _ (ihe he hfirst hmb hax hxm hac)
    · have hcm : m ≤ c := Nat.le_of_not_lt fun hlt => by
        have := (he.block hfirst hmb).loops hc.starts hac hlt hf
        omega
      have hcm : m + 4 ≤ c := hm.add_le_of_ne hc.starts hjump hf nofun hcm
      exact List.mem_append_right _ (ihg hg hlast hb hxm hxb hcm)
  | capture i e ih =>
    obtain ⟨m, hopen, ⟨hfirst, he⟩, ⟨hm, hmb, hclose⟩, rfl⟩ := h.parts_capture ha hb
    have hac : a + 3 ≤ c := ha.add_le_of_ne hc.starts hopen hf nofun hac
    rcases closes_capture ha hopen hm hclose hx hax hxb with ⟨hax, hxm⟩ | ⟨rfl, rfl⟩
    · exact ih he hfirst hmb hax hxm hac
    · have := (he.block hfirst hmb).loops hc.starts hac hcx hf
      omega
  | repetition e q ih =>
    obtain ⟨n, m, ⟨hloop, -⟩, ⟨hfirst, he⟩, hmb, hend⟩ := h.parts_repetition ha hb
    obtain ⟨hax, hxm⟩ := closes_repetition ha hloop hend hx hax hxb
    have hmb := Nat.lt_of_le_of_lt hmb hb
    rw [loopIndices]
    split
    · exact he.mem_indices hfirst hmb hx hax hxm
    · next hq =>
      rcases Nat.eq_or_lt_of_le hac with rfl | hlt
      · cases hloop.symm.trans hf
        exact absurd hl hq
      · exact ih he hfirst hmb hax hxm (ha.add_le hc.starts hloop hlt)

end

end Expr

/-! ### Programs -/

namespace Program

/-- What the code of an expression keeps to, beyond being sound: it leads into no loop but from the
loop and from inside, no capture is closed at two places, and the operands of loops are in order. -/
structure Structured (p : Program) : Prop where
  inside {x x' c : Nat} {l : Loop} (hx : p.Starts x) (h : p.Flows x x') (hc : p.Inside c l x') :
    c ≤ x ∧ x < l.after c
  closes {index : UInt8} {x y : Nat} (hx : p.Closes index x) (hy : p.Closes index y) : x = y
  inOrder {c size : Nat} {l : Loop} (hc : p.Starts c) (hf : p.fetch? c = some (.loop l, size)) :
    l.InOrder

/-- A capture is fixed if it is closed inside no loop that may iterate more than once. -/
def Fixed (p : Program) (index : UInt8) : Prop :=
  ∀ x, p.Closes index x → ∀ c l, p.Inside c l x → ¬1 < l.max

end Program

namespace Expr

section

variable {p : Program} {e : Expr} (hcode : p.code = e.code ++ Instr.accept.encode)
  (hlen : p.code.length ≤ maxCodeLength)
include hcode hlen

/-- The code of an expression with an instruction behind it that accepts. -/
theorem laidOut_of_code :
    e.LaidOut p 0 e.code.length ∧ p.fetch? e.code.length = some (.accept, 2) ∧
      p.code.length = e.code.length + 2 ∧ p.Starts 0 := by
  have hholds : p.Holds 0 (e.code ++ Instr.accept.encode) := ⟨[], [], by simpa using hcode, rfl⟩
  have hlaid := e.laidOut_of_holds hholds.left hlen
  have haccept := hholds.right.fetch?_eq trivial
  rw [Nat.zero_add] at hlaid haccept
  have hlength : p.code.length = e.code.length + 2 := by
    rw [hcode, List.length_append]
    rfl
  exact ⟨hlaid, haccept, hlength, .zero (by omega)⟩

/-- No capture is closed behind the code of the expression. -/
theorem lt_of_closes {index : UInt8} {x : Nat} (hx : p.Closes index x) : x < e.code.length := by
  obtain ⟨hlaid, haccept, hlength, hzero⟩ := laidOut_of_code hcode hlen
  refine Nat.lt_of_not_le fun hle => ?_
  have hend := hlaid.starts hzero (by omega)
  have hbehind := hx.add_le hend haccept nofun hle
  have hlt := hx.starts.lt
  omega

/-- **A program that holds the code of an expression is structured**, if no two captures of the
expression share a number and the code can be loaded. -/
theorem structured_code {captures : Nat} (hnodup : e.indices.Nodup)
    (hadmissible : p.Admissible captures) : p.Structured := by
  obtain ⟨hlaid, haccept, hlength, hzero⟩ := laidOut_of_code hcode hlen
  have hlt : e.code.length < p.code.length := by omega
  have hend := Program.Block.one (hlaid.starts hzero hlt) haccept rfl
  have hblock := (hlaid.block hzero hlt).append hend
  exact {
    inside := fun hx h hc =>
      hblock.inside hx (Nat.zero_le _) (hlength ▸ hx.lt) h hc (Nat.zero_le _)
    closes := fun hx hy =>
      hlaid.closes_unique hzero hlt hnodup hx (Nat.zero_le _) (lt_of_closes hcode hlen hx) hy
        (Nat.zero_le _) (lt_of_closes hcode hlen hy)
    inOrder := fun hc hf => by
      obtain ⟨i, size, hf', hadmits, -⟩ := hadmissible.admits hc
      cases hf.symm.trans hf'
      exact hadmits.1 }

/-- A capture that the expression has inside no repetition that may iterate more than once is fixed
in the program. -/
theorem fixed_of_not_mem {index : UInt8} (h : index ∉ e.loopIndices) : p.Fixed index := by
  obtain ⟨hlaid, -, hlength, hzero⟩ := laidOut_of_code hcode hlen
  intro x hx c l hc hl
  exact h (hlaid.mem_loopIndices hzero (by omega) hx (Nat.zero_le _) (lt_of_closes hcode hlen hx) hc
    (Nat.zero_le _) hl)

/-- What the program closes is a capture of the expression. -/
theorem mem_indices_of_closes {index : UInt8} {x : Nat} (hx : p.Closes index x) :
    index ∈ e.indices := by
  obtain ⟨hlaid, -, hlength, hzero⟩ := laidOut_of_code hcode hlen
  exact hlaid.mem_indices hzero (by omega) hx (Nat.zero_le _) (lt_of_closes hcode hlen hx)

end

end Expr

end BoundedRegex
