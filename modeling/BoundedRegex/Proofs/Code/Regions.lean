import BoundedRegex.Proofs.Code.Brackets

/-!
# Captures and loops as regions of the code

A capture takes up the code from the instruction that opens it up to the one that closes it, both
included, and a loop takes up its own instruction and its body (`Program.Region`).

* `Expr.LaidOut.exists_chain` — the code of an expression opens its captures in their order, and
  closes each of them, once.
* `Program.Region.nested` — of two regions in the code of an expression one is inside the other, or
  they have nothing in common.
* `Expr.mem_loopIndices_iff` — the captures inside repetitions that may iterate more than once are
  those that open inside such a loop.
-/

namespace BoundedRegex

/-- The capture that an instruction opens. -/
def Instr.opened? : Instr → Option UInt8
  | captureStart index => some index
  | _ => none

/-- The capture that an instruction closes. -/
def Instr.closed? : Instr → Option UInt8
  | captureEnd index => some index
  | _ => none

theorem Instr.opened?_eq_some {i : Instr} {index : UInt8} :
    i.opened? = some index ↔ i = captureStart index := by
  cases i <;> simp [opened?]

theorem Instr.closed?_eq_some {i : Instr} {index : UInt8} :
    i.closed? = some index ↔ i = captureEnd index := by
  cases i <;> simp [closed?]

namespace Located

/-- The captures that instructions open, in their order. -/
def openings (located : List Located) : List UInt8 :=
  located.filterMap (·.instr.opened?)

/-- The captures that instructions close, in their order. -/
def closings (located : List Located) : List UInt8 :=
  located.filterMap (·.instr.closed?)

/-! ### The order of the code -/

/-- Instructions open captures in a given order, and close the same ones. -/
structure Carries (located : List Located) (indices : List UInt8) : Prop where
  openings : openings located = indices
  closings : (closings located).Perm indices

namespace Carries

variable {l l' : List Located} {is is' : List UInt8}

theorem one {i : Instr} (hopen : i.opened? = none) (hclose : i.closed? = none) (addr size : Nat) :
    Carries [⟨addr, i, size⟩] [] where
  openings := by simp [Located.openings, hopen]
  closings := by simp [Located.closings, hclose]

theorem append (h : Carries l is) (h' : Carries l' is') : Carries (l ++ l') (is ++ is') where
  openings := by
    rw [← h.openings, ← h'.openings]
    exact List.filterMap_append
  closings := by
    rw [Located.closings, List.filterMap_append]
    exact h.closings.append h'.closings

/-- What opens a capture, in front, and what closes it, behind. -/
theorem capture (h : Carries l is) (index : UInt8) (a m : Nat) :
    Carries ([⟨a, .captureStart index, 3⟩] ++ (l ++ [⟨m, .captureEnd index, 3⟩]))
      (index :: is) where
  openings := by
    show index :: Located.openings (l ++ _) = _
    rw [Located.openings, List.filterMap_append]
    exact congrArg _ ((List.append_nil _).trans h.openings)
  closings := by
    show (Located.closings (l ++ _)).Perm _
    rw [Located.closings, List.filterMap_append]
    exact (List.perm_append_singleton index _).trans (h.closings.cons index)

end Carries

end Located

theorem Leaf.opened?_instr (l : Leaf) : l.instr.opened? = none ∧ l.instr.closed? = none := by
  have hsingle := l.isSingleByte_instr
  cases hinstr : l.instr with
  | captureStart | captureEnd =>
    rw [hinstr] at hsingle
    cases hsingle
  | _ => exact ⟨rfl, rfl⟩

/-- **The code of an expression opens its captures in their order, and closes the same ones**, with
any instructions behind it. -/
theorem Expr.LaidOut.exists_chain {p : Program} {e : Expr} {a b : Nat} (h : e.LaidOut p a b)
    {back : List Located} (hback : Located.Chain p b back) :
    ∃ front, Located.Chain p a (front ++ back) ∧ Located.Carries front e.indices := by
  induction e generalizing a b back with
  | leaf l =>
    obtain ⟨n, hf, rfl⟩ := h
    obtain ⟨hopened, hclosed⟩ := l.opened?_instr
    exact ⟨[⟨a, l.instr, n⟩], .cons (l := ⟨a, _, n⟩) hf hback, .one hopened hclosed a n⟩
  | anchor x =>
    obtain ⟨n, hf, rfl⟩ := h
    refine ⟨[⟨a, x.instr, n⟩], .cons (l := ⟨a, _, n⟩) hf hback, .one ?_ ?_ a n⟩ <;> cases x <;> rfl
  | seq e f ihe ihf =>
    obtain ⟨m, he, hf⟩ := h
    obtain ⟨front', hchain', hcarries'⟩ := ihf hf hback
    obtain ⟨front, hchain, hcarries⟩ := ihe he hchain'
    exact ⟨front ++ front', by rwa [List.append_assoc], hcarries.append hcarries'⟩
  | alt e f ihe ihf =>
    obtain ⟨m, o, o', hsplit, -, he, hjump, -, hf⟩ := h
    obtain ⟨front', hchain', hcarries'⟩ := ihf hf hback
    obtain ⟨front, hchain, hcarries⟩ := ihe he (.cons (l := ⟨m, _, 4⟩) hjump hchain')
    refine ⟨[⟨a, .split o, 4⟩] ++ (front ++ ([⟨m, .jump o', 4⟩] ++ front')), ?_, ?_⟩
    · rw [List.append_assoc, List.append_assoc]
      exact .cons (l := ⟨a, _, 4⟩) hsplit hchain
    · exact (Located.Carries.one rfl rfl a 4).append
        (hcarries.append ((Located.Carries.one rfl rfl m 4).append hcarries'))
  | capture index e ih =>
    obtain ⟨m, hstart, he, hstop, rfl⟩ := h
    obtain ⟨front, hchain, hcarries⟩ := ih he (.cons (l := ⟨m, _, 3⟩) hstop hback)
    refine ⟨_, ?_, hcarries.capture index a m⟩
    rw [List.append_assoc, List.append_assoc]
    exact .cons (l := ⟨a, _, 3⟩) hstart hchain
  | repetition e q ih =>
    obtain ⟨n, hloop, -, hbody⟩ := h
    have hopen := Located.Carries.one (i := .loop (e.toLoop q n)) rfl rfl a 7
    split at hbody
    · obtain ⟨front, hchain, hcarries⟩ := ih hbody hback
      exact ⟨_, .cons (l := ⟨a, _, 7⟩) hloop hchain, hopen.append hcarries⟩
    · obtain ⟨m, o, he, hend, -, rfl⟩ := hbody
      obtain ⟨front, hchain, hcarries⟩ := ih he (.cons (l := ⟨m, _, 4⟩) hend hback)
      have hclose := Located.Carries.one (i := .loopEnd o) rfl rfl m 4
      refine ⟨[⟨a, .loop (e.toLoop q n), 7⟩] ++ (front ++ [⟨m, .loopEnd o, 4⟩]), ?_, ?_⟩
      · rw [List.append_assoc, List.append_assoc]
        exact .cons (l := ⟨a, _, 7⟩) hloop hchain
      · have hall := hopen.append (hcarries.append hclose)
        rwa [List.append_nil] at hall

/-! ### Where captures open and close -/

namespace Program

/-- The instruction that opens a capture stands at an address. -/
structure Opens (p : Program) (index : UInt8) (a : Nat) : Prop where
  starts : p.Starts a
  fetch : ∃ size, p.fetch? a = some (.captureStart index, size)

variable {p : Program} {located : List Located} {index : UInt8} {x : Nat}

theorem Opens.mem_openings (hx : p.Opens index x) (h : Located.Chain p 0 located) :
    index ∈ Located.openings located := by
  obtain ⟨size, hf⟩ := hx.fetch
  obtain ⟨l, hl, rfl⟩ := h.exists_of_starts hx.starts
  have hinstr : l.instr = .captureStart index :=
    congrArg Prod.fst (Option.some.inj ((h.of_mem hl).1.symm.trans hf))
  exact List.mem_filterMap.2 ⟨l, hl, Instr.opened?_eq_some.2 hinstr⟩

theorem exists_closes (h : Located.Chain p 0 located) (hzero : p.Starts 0)
    (hindex : index ∈ Located.closings located) : ∃ y, p.Closes index y := by
  obtain ⟨l, hl, hclosed⟩ := List.mem_filterMap.1 hindex
  have hf := (h.of_mem hl).1
  rw [Instr.closed?_eq_some.1 hclosed] at hf
  exact ⟨l.addr, h.starts (fun _ => hzero) hl, l.size, hf⟩

end Program

namespace Expr

variable {p : Program} {e : Expr} {a b : Nat} {index : UInt8}

/-- The captures of an expression open in its code. -/
theorem LaidOut.exists_opens (h : e.LaidOut p a b) (ha : p.Starts a) (hb : b < p.code.length)
    (hindex : index ∈ e.indices) : ∃ x, p.Opens index x ∧ a ≤ x ∧ x < b := by
  induction e generalizing a b with
  | leaf | anchor => cases hindex
  | seq e f ihe ihf =>
    obtain ⟨m, he, ⟨hm, hmb⟩, hf⟩ := h.parts_seq ha hb
    have hle := he.le
    have hle' := hf.le
    rcases List.mem_append.1 hindex with hindex | hindex
    · obtain ⟨x, hx, hax, hxm⟩ := ihe he ha hmb hindex
      exact ⟨x, hx, hax, by omega⟩
    · obtain ⟨x, hx, hmx, hxb⟩ := ihf hf hm hb hindex
      exact ⟨x, hx, by omega, hxb⟩
  | alt e f ihe ihf =>
    obtain ⟨m, o, o', -, ⟨hfirst, he⟩, ⟨-, hmb, -⟩, hlast, hf⟩ := h.parts_alt ha hb
    have hle := he.le
    have hle' := hf.le
    rcases List.mem_append.1 hindex with hindex | hindex
    · obtain ⟨x, hx, hax, hxm⟩ := ihe he hfirst hmb hindex
      exact ⟨x, hx, by omega, by omega⟩
    · obtain ⟨x, hx, hmx, hxb⟩ := ihf hf hlast hb hindex
      exact ⟨x, hx, by omega, hxb⟩
  | capture i e ih =>
    obtain ⟨m, hopen, ⟨hfirst, he⟩, ⟨-, hmb, -⟩, rfl⟩ := h.parts_capture ha hb
    have hle := he.le
    rcases List.mem_cons.1 hindex with rfl | hindex
    · exact ⟨a, ⟨ha, 3, hopen⟩, Nat.le_refl a, by omega⟩
    · obtain ⟨x, hx, hax, hxm⟩ := ih he hfirst hmb hindex
      exact ⟨x, hx, by omega, by omega⟩
  | repetition e q ih =>
    obtain ⟨n, m, -, ⟨hfirst, he⟩, hmb, -⟩ := h.parts_repetition ha hb
    obtain ⟨x, hx, hax, hxm⟩ := ih he hfirst (Nat.lt_of_le_of_lt hmb hb) hindex
    exact ⟨x, hx, Nat.le_trans (Nat.le_of_lt (Loop.lt_body a)) hax, by omega⟩

/-- The captures inside repetitions that may iterate more than once open inside such loops. -/
theorem LaidOut.exists_inside (h : e.LaidOut p a b) (ha : p.Starts a) (hb : b < p.code.length)
    (hindex : index ∈ e.loopIndices) :
    ∃ x c l, p.Opens index x ∧ p.Inside c l x ∧ 1 < l.max := by
  induction e generalizing a b with
  | leaf | anchor => cases hindex
  | seq e f ihe ihf =>
    obtain ⟨m, he, ⟨hm, hmb⟩, hf⟩ := h.parts_seq ha hb
    rcases List.mem_append.1 hindex with hindex | hindex
    · exact ihe he ha hmb hindex
    · exact ihf hf hm hb hindex
  | alt e f ihe ihf =>
    obtain ⟨m, o, o', -, ⟨hfirst, he⟩, ⟨-, hmb, -⟩, hlast, hf⟩ := h.parts_alt ha hb
    rcases List.mem_append.1 hindex with hindex | hindex
    · exact ihe he hfirst hmb hindex
    · exact ihf hf hlast hb hindex
  | capture i e ih =>
    obtain ⟨m, -, ⟨hfirst, he⟩, ⟨-, hmb, -⟩, -⟩ := h.parts_capture ha hb
    exact ih he hfirst hmb hindex
  | repetition e q ih =>
    obtain ⟨n, m, ⟨hloop, hafter⟩, ⟨hfirst, he⟩, hmb, -⟩ := h.parts_repetition ha hb
    have hm := Nat.lt_of_le_of_lt hmb hb
    rw [loopIndices] at hindex
    split at hindex
    · next hq =>
      obtain ⟨x, hx, hax, hxm⟩ := he.exists_opens hfirst hm hindex
      have hinside : p.Inside a (e.toLoop q n) x :=
        ⟨ha, ⟨7, hloop⟩, Nat.lt_of_lt_of_le (Loop.lt_body a) hax, by omega⟩
      exact ⟨x, a, _, hx, hinside, hq⟩
    · exact ih he hfirst hm hindex

end Expr

/-! ### Regions -/

theorem Instr.isSingleByte_of_isClosing {i : Instr} (h : i.isClosing = true) :
    i.isSingleByte = false := by
  cases i with
  | loopEnd | captureEnd => rfl
  | _ => cases h

namespace Program

/-- What a capture takes up, or a loop, is the code from `lo` up to `stop`. -/
inductive Region (p : Program) (lo stop : Nat) : Prop where
  | capture {index : UInt8} {last size : Nat} (hlo : p.Opens index lo) (hlast : p.Starts last)
      (hf : p.fetch? last = some (.captureEnd index, size)) (hstop : stop = last + size)
  | loop {l : Loop} {size : Nat} (hlo : p.Starts lo) (hf : p.fetch? lo = some (.loop l, size))
      (hstop : stop = l.after lo)

namespace Region

variable {p : Program} {captures lo stop lo' stop' last : Nat}

/-- A region is a bracket, or a loop around one instruction. -/
inductive Shape (p : Program) (lo stop : Nat) : Prop where
  | bracket {last size : Nat} {i : Instr} (h : p.Bracket lo last) (hlast : p.Starts last)
      (hf : p.fetch? last = some (i, size)) (hstop : stop = last + size)
  | single {l : Loop} {i : Instr} {size : Nat} (hlo : p.Starts lo)
      (hloop : p.fetch? lo = some (.loop l, 7)) (hbody : p.Starts (Loop.body lo))
      (hf : p.fetch? (Loop.body lo) = some (i, size)) (hsingle : i.isSingleByte = true)
      (hstop : stop = Loop.body lo + size)

theorem shape (h : p.Region lo stop) (hp : p.Admissible captures) : Shape p lo stop := by
  cases h with
  | capture hlo hlast hf hstop =>
    obtain ⟨size, hopen⟩ := hlo.fetch
    exact .bracket (.capture hlo.starts hopen ⟨hlast, _, hf⟩) hlast hf hstop
  | @loop l size hlo hf hstop =>
    obtain ⟨_, _, hf', hadmits, -⟩ := hp.admits hlo
    cases hf.symm.trans hf'
    obtain ⟨-, hbody, -, hhas⟩ := hadmits
    obtain rfl := size_of_loop hf
    rw [HasBody] at hhas
    split at hhas
    · obtain ⟨i, hi, hsingle⟩ := hhas
      exact .single hlo hf hbody hi hsingle hstop
    · next hsingle =>
      obtain ⟨hlt, hlast, offset, n, hend, -⟩ := hhas
      obtain rfl := size_of_loopEnd hend
      have hafter : l.after lo = l.after lo - 4 + 4 := by omega
      exact .bracket (.loop hlo hf (eq_false_of_ne_true hsingle) hafter hend) hlast hend
        (hstop.trans hafter)

/-- A region does not begin with an instruction that consumes a byte. -/
theorem opening (h : p.Region lo stop) :
    p.Starts lo ∧ ∃ i size, p.fetch? lo = some (i, size) ∧ i.isSingleByte = false := by
  cases h with
  | capture hlo =>
    obtain ⟨size, hopen⟩ := hlo.fetch
    exact ⟨hlo.starts, _, size, hopen, rfl⟩
  | loop hlo hf => exact ⟨hlo, _, _, hf, rfl⟩

/-- Equal beginnings, equal ends. -/
theorem unique (hs : p.Structured) (h : p.Region lo stop) (h' : p.Region lo stop') :
    stop = stop' := by
  cases h with
  | capture hlo hlast hf hstop =>
    obtain ⟨size, hopen⟩ := hlo.fetch
    cases h' with
    | capture hlo' hlast' hf' hstop' =>
      obtain ⟨size', hopen'⟩ := hlo'.fetch
      cases hopen.symm.trans hopen'
      obtain rfl := hs.closes ⟨hlast, _, hf⟩ ⟨hlast', _, hf'⟩
      cases hf.symm.trans hf'
      exact hstop.trans hstop'.symm
    | loop _ hf' => cases hopen.symm.trans hf'
  | loop _ hf hstop =>
    cases h' with
    | capture hlo' =>
      obtain ⟨size', hopen'⟩ := hlo'.fetch
      cases hf.symm.trans hopen'
    | loop _ hf' hstop' =>
      cases hf.symm.trans hf'
      exact hstop.trans hstop'.symm

/-- A region that begins inside a bracket ends before the bracket does. -/
theorem le_last (hp : p.Admissible captures) (hb : p.Bracketed) (h' : p.Region lo' stop')
    (h : p.Bracket lo last) (hlast : p.Starts last) {i : Instr} {size : Nat}
    (hf : p.fetch? last = some (i, size)) (hlo : lo < lo') (hle : lo' ≤ last) : stop' ≤ last := by
  have hnot := Instr.isSingleByte_of_isClosing (h.isClosing hf)
  cases h'.shape hp with
  | bracket h' hlast' hf' hstop' =>
    rw [hstop']
    exact hlast'.add_le hlast hf' (hb.nested h h' hlo hle)
  | @single l j n hlo' hloop hbody hf' hsingle hstop' =>
    have hne : Instr.loop l ≠ i := by
      rintro rfl
      cases h.isClosing hf
    have hne' : j ≠ i := by
      rintro rfl
      exact Bool.false_ne_true (hnot.symm.trans hsingle)
    have hbehind := hlo'.add_le_of_ne hlast hloop hf hne hle
    exact hstop' ▸ hbody.add_le_of_ne hlast hf' hf hne' hbehind

/-- Of two regions the one that begins later is inside the other, or behind it. -/
theorem le_or_lt (hp : p.Admissible captures) (hb : p.Bracketed) (h : p.Region lo stop)
    (h' : p.Region lo' stop') (hlt : lo < lo') : stop ≤ lo' ∨ stop' < stop := by
  obtain ⟨hlo', i', size', hf', hnot⟩ := h'.opening
  cases h.shape hp with
  | @bracket last size i h hlast hf hstop =>
    have hsize := length_of_fetch? hf
    rcases Nat.lt_or_ge last lo' with hbehind | hle
    · exact Or.inl (hstop ▸ hlast.add_le hlo' hf hbehind)
    · have := h'.le_last hp hb h hlast hf hlt hle
      exact Or.inr (by omega)
  | @single l i size hlo hloop hbody hf hsingle hstop =>
    have hbehind : Loop.body lo ≤ lo' := hlo.add_le hlo' hloop hlt
    have hne : i ≠ i' := by
      rintro rfl
      rw [hsingle] at hnot
      cases hnot
    exact Or.inl (hstop ▸ hbody.add_le_of_ne hlo' hf hf' hne hbehind)

/-- **Of two regions one is inside the other, or they have nothing in common.** -/
theorem nested (hp : p.Admissible captures) (hb : p.Bracketed) (hs : p.Structured)
    (h : p.Region lo stop) (h' : p.Region lo' stop') :
    stop ≤ lo' ∨ stop' ≤ lo ∨ (lo < lo' ∧ stop' < stop) ∨ (lo' < lo ∧ stop < stop') ∨
      (lo = lo' ∧ stop = stop') := by
  rcases Nat.lt_trichotomy lo lo' with hlt | rfl | hlt
  · have := h.le_or_lt hp hb h' hlt
    omega
  · have := h.unique hs h'
    omega
  · have := h'.le_or_lt hp hb h hlt
    omega

end Region

end Program

/-! ### Captures in loops -/

namespace Expr

variable {p : Program} {e : Expr} (hcode : p.code = e.code ++ Instr.accept.encode)
  (hlen : p.code.length ≤ maxCodeLength)
include hcode hlen

/-- The code of an expression, with the instruction behind it that accepts, carries the captures of
the expression. -/
theorem exists_located :
    ∃ located, Located.Chain p 0 located ∧ Located.Carries located e.indices := by
  obtain ⟨hlaid, haccept, hlength, -⟩ := laidOut_of_code hcode hlen
  have hend : Located.Chain p (e.code.length + 2) [] := hlength ▸ .nil
  obtain ⟨front, hchain, hcarries⟩ :=
    hlaid.exists_chain (.cons (l := ⟨e.code.length, .accept, 2⟩) haccept hend)
  have hall := hcarries.append (.one (i := .accept) rfl rfl e.code.length 2)
  rw [List.append_nil] at hall
  exact ⟨_, hchain, hall⟩

/-- **The captures inside repetitions that may iterate more than once are those that open inside
such a loop.** -/
theorem mem_loopIndices_iff {captures : Nat} (hp : p.Admissible captures) (hb : p.Bracketed)
    {index : UInt8} :
    index ∈ e.loopIndices ↔ ∃ x c l, p.Opens index x ∧ p.Inside c l x ∧ 1 < l.max := by
  obtain ⟨hlaid, -, hlength, hzero⟩ := laidOut_of_code hcode hlen
  constructor
  · exact hlaid.exists_inside hzero (by omega)
  · rintro ⟨x, c, l, hx, hc, hmax⟩
    obtain ⟨located, hchain, hcarries⟩ := exists_located hcode hlen
    have hmem := hx.mem_openings hchain
    rw [hcarries.openings, ← hcarries.closings.mem_iff] at hmem
    obtain ⟨y, hy⟩ := Program.exists_closes hchain hzero hmem
    -- The capture begins inside the loop, so the instruction that closes it is inside too.
    obtain ⟨size, hopen⟩ := hx.fetch
    obtain ⟨size', hclose⟩ := hy.fetch
    obtain ⟨size'', hloop⟩ := hc.fetch
    have hlt := hb.lt (.capture hx.starts hopen hy)
    have hregion := Program.Region.le_or_lt hp hb (.loop hc.starts hloop rfl)
      (.capture hx hy.starts hclose rfl) hc.lt
    have hcx := hc.lt
    have hxc := hc.lt_after
    have hinside : p.Inside c l y := ⟨hc.starts, hc.fetch, by omega, by omega⟩
    exact hlaid.mem_loopIndices hzero (by omega) hy (Nat.zero_le _) (lt_of_closes hcode hlen hy)
      hinside (Nat.zero_le _) hmax

end Expr

end BoundedRegex
