import BoundedRegex.Proofs.Compile.Emission
import BoundedRegex.Proofs.Pattern.Phrase
import BoundedRegex.Proofs.Pattern.Unambiguous

/-!
# The compiler reads every phrase

Nothing but what the limits forbid keeps a compilation from reading a phrase: where there is room
for its code, its brackets are not nested too deep, its captures can be numbered and what it repeats
consumes, every token of it is taken (`Phrase.taken`).  Conversely, tokens that are all taken are
not nested too deep (`Phrase.nesting_le`).
-/

namespace BoundedRegex

/-! ### The length of code -/

theorem Expr.length_code_alternation (earlier : List Expr) (e : Expr) :
    (alternation earlier e).code.length = (pendingCode earlier).length + e.code.length := by
  induction earlier generalizing e with
  | nil => exact (Nat.zero_add _).symm
  | cons f earlier ih =>
    rw [alternation, ih, code, List.length_append, length_alternativeCode, length_pendingCode_cons,
      ← Nat.add_assoc]

theorem Reading.code_of_sequence_none {r : Reading} (hs : r.sequence = none) :
    r.code = Expr.pendingCode r.earlier := by
  rw [code, hs]
  exact List.append_nil _

/-- A phrase adds the length of its code to that of the level in which it starts. -/
theorem Category.Extends.length_code {c : Category} {l l' : Reading} {e : Expr}
    (h : c.Extends l l' e) (hl : c.Starts l) :
    l'.code.length = l.code.length + e.code.length := by
  cases c with
  | element =>
    obtain rfl := h
    rw [Reading.code_place, List.length_append]
  | atom =>
    obtain ⟨hearlier, hsequence⟩ := h
    have hjoin : (joinAtom l.sequence e).code = Reading.optionCode l.sequence ++ e.code := by
      cases l.sequence <;> rfl
    rw [Reading.code_of_sequence hsequence, hearlier, hjoin, ← List.append_assoc,
      List.length_append]
    rfl
  | sequence =>
    obtain ⟨hearlier, hsequence⟩ := h
    rw [Reading.code_of_sequence hsequence, hearlier, Reading.code_of_sequence_none hl,
      List.length_append]
  | alternation =>
    obtain ⟨f, hsequence, halternation⟩ := h
    rw [Reading.code_of_sequence hsequence, Reading.code_of_sequence_none hl, List.length_append,
      ← Expr.length_code_alternation, halternation, Expr.length_code_alternation]

/-- The length of the code of what has been read, in a level and around it. -/
def Reading.extent (r : Reading) (around : Around) : Nat :=
  (Around.code around).length + r.code.length

theorem Reading.extent_enter (r : Reading) (around : Around) (capture : Option UInt8) :
    ({} : Reading).extent ((capture, r) :: around) =
      r.extent around + (openingCode capture).length := by
  show (Around.code around ++ (r.code ++ openingCode capture)).length + 0 = _
  rw [List.length_append, List.length_append, Nat.add_zero, ← Nat.add_assoc]
  rfl

theorem Reading.extent_eq {c : Category} {r r' : Reading} {e : Expr} (h : c.Extends r r' e)
    (hr : c.Starts r) (around : Around) :
    r'.extent around = r.extent around + e.code.length := by
  rw [extent, h.length_code hr, extent, Nat.add_assoc]

theorem Reading.extent_alternate {r : Reading} {e : Expr} (hs : r.sequence = some e)
    (around : Around) : (r.alternate e).extent around = r.extent around + 8 := by
  rw [extent, code_alternate, Expr.length_pendingCode_cons, extent, code_of_sequence hs,
    List.length_append, ← Nat.add_assoc, ← Nat.add_assoc, ← Nat.add_assoc]

/-! ### Single tokens -/

theorem Opening.Show.length_eq {openings : List Opening} {around : Around}
    (h : Opening.Show openings around) : openings.length = around.length := by
  induction openings generalizing around with
  | nil =>
    cases around with
    | nil => rfl
    | cons => exact h.elim
  | cons o outer ih =>
    cases around with
    | nil => exact h.elim
    | cons => exact congrArg Nat.succ (ih h.2.2.2)

theorem bind_ok {ε α β : Type} {x : Except ε α} {f : α → Except ε β} {a : α} {b : β}
    (hx : x = .ok a) (hf : f a = .ok b) : x >>= f = .ok b := by
  rw [hx]
  exact hf

namespace Emission

variable {E E' : Emission} {r : Reading} {around : Around} {n size position : Nat} {e : Expr}

theorem write_eq_ok {f : CodeBuffer → Option CodeBuffer} {b : CodeBuffer}
    (h : f E.buffer = some b) (position : Nat) :
    E.write position f = .ok { E with buffer := b } := by
  cases E
  simp only [write, h]

/-- A compilation in a buffer of `size` bytes shows what has been read, and `n` captures. -/
structure Stands (E : Emission) (r : Reading) (around : Around) (n size : Nat) : Prop where
  shows : E.Shows r around
  captures : E.captures = n
  size : E.buffer.size = size

namespace Stands

/-- Where there is room in a buffer of its size, there is room in the compilation's. -/
theorem room (h : E.Stands r around n size) {k : Nat}
    (hk : r.extent around + k ≤ Nat.min size maxCodeLength) :
    E.buffer.location + k ≤ E.buffer.capacity := by
  rw [h.shows.location_eq, CodeBuffer.capacity, h.size]
  exact hk

theorem element {i : Instr} (h : E.Stands r around n size) (hcode : i.encode = e.code)
    (hroom : r.extent around + e.code.length ≤ Nat.min size maxCodeLength) (position : Nat) :
    ∃ E', E.element position i e.footprint = .ok E' ∧ E'.Stands (r.place e) around n size := by
  obtain ⟨b, hb, hsize⟩ := CodeBuffer.exists_emit (i := i) (h.room (hcode ▸ hroom))
  obtain ⟨E', hE, hsize'⟩ : ∃ E', E.element position i e.footprint = .ok E' ∧
      E'.buffer.size = E.buffer.size :=
    ⟨_, write_eq_ok
      (E := { E with level := E.level.place ⟨E.buffer.location, E.captures, e.footprint⟩ })
      (f := (·.emit i)) hb position, hsize⟩
  obtain ⟨hshows, hcaptures⟩ := h.shows.element hcode hE
  exact ⟨E', hE, hshows, hcaptures.trans h.captures, hsize'.trans h.size⟩

theorem quantify {q : Quantifier} (h : E.Stands r around n size) (ho : r.operand = some e)
    (hnull : e.nullable = false)
    (hroom : r.extent around + (7 + if e.isLeaf then 0 else 4) ≤ Nat.min size maxCodeLength)
    (position : Nat) :
    ∃ E', E.quantify position q = .ok E' ∧ E'.Stands (r.quantify e q) around n size := by
  have hoperand := h.shows.level.operand
  rw [ho] at hoperand
  obtain ⟨o, hlevel, hof⟩ := Option.map_eq_some_iff.1 hoperand
  obtain ⟨b, hb, hsize⟩ :=
    CodeBuffer.exists_makeLoop o.start q (e.footprint.needsFrames q.max) (h.room hroom)
  obtain ⟨E', hE, hsize'⟩ : ∃ E', E.quantify position q = .ok E' ∧
      E'.buffer.size = E.buffer.size := by
    have hsingle : e.footprint.singleByte = e.isLeaf := by rw [e.footprint_eq]
    have hnull' : ¬e.footprint.nullable = true := by
      rw [e.footprint_eq]
      exact ne_true_of_eq_false hnull
    unfold Emission.quantify
    simp only [hlevel, hof, if_neg hnull', hsingle]
    rw [write_eq_ok hb]
    exact ⟨_, rfl, hsize⟩
  obtain ⟨e', ho', -, hshows, hcaptures⟩ := h.shows.quantify hE
  obtain rfl := Option.some.inj (ho.symm.trans ho')
  exact ⟨E', hE, hshows, hcaptures.trans h.captures, hsize'.trans h.size⟩

theorem alternate (h : E.Stands r around n size) (hs : r.sequence = some e)
    (hroom : r.extent around + 8 ≤ Nat.min size maxCodeLength) (position : Nat) :
    ∃ E', E.alternate position = .ok E' ∧ E'.Stands (r.alternate e) around n size := by
  have hsequence := h.shows.level.sequence
  rw [hs] at hsequence
  obtain ⟨b₁, hinsert, hsize₁, hlocation⟩ := CodeBuffer.exists_insert (b := E.buffer)
    (i := .split 0) E.level.start (h.room (Nat.le_trans (Nat.add_le_add_left (by decide) _) hroom))
  obtain ⟨b₂, hjump, hsize₂⟩ := CodeBuffer.exists_emitJump (b := b₁) E.level.lastJump (by
    rw [hlocation, CodeBuffer.capacity, hsize₁]
    exact h.room hroom)
  obtain ⟨E', hE, hsize'⟩ : ∃ E', E.alternate position = .ok E' ∧
      E'.buffer.size = E.buffer.size := by
    unfold Emission.alternate
    rw [hsequence]
    refine ⟨_, bind_ok (write_eq_ok (f := (·.insert E.level.start (.split 0))) hinsert position)
      (bind_ok (write_eq_ok (f := (·.emitJump E.level.lastJump)) hjump position) rfl), ?_⟩
    exact hsize₂.trans hsize₁
  obtain ⟨e', hs', hshows, hcaptures⟩ := h.shows.alternate hE
  obtain rfl := Option.some.inj (hs.symm.trans hs')
  exact ⟨E', hE, hshows, hcaptures.trans h.captures, hsize'.trans h.size⟩

/-- There are as many open brackets as have been read. -/
theorem length_openings (h : E.Stands r around n size) : E.openings.length = around.length :=
  Opening.Show.length_eq h.shows.openings

theorem enter_group {limit : Nat} (h : E.Stands r around n size) (hd : around.length < limit)
    (position : Nat) :
    ∃ E', E.enter limit position false = .ok E' ∧ E'.Stands {} ((none, r) :: around) n size := by
  rw [← h.length_openings] at hd
  obtain ⟨E', hE, hsize⟩ : ∃ E', E.enter limit position false = .ok E' ∧
      E'.buffer.size = E.buffer.size := by
    unfold Emission.enter
    rw [if_neg (Nat.not_le_of_lt hd)]
    exact ⟨_, rfl, rfl⟩
  rcases h.shows.enter hE with ⟨-, hshows, hcaptures⟩ | ⟨hcapturing, -⟩
  · exact ⟨E', hE, hshows, hcaptures.trans h.captures, hsize.trans h.size⟩
  · cases hcapturing

theorem enter_capture {limit : Nat} (h : E.Stands r around n size) (hd : around.length < limit)
    (hn : n < 255) (hroom : r.extent around + 3 ≤ Nat.min size maxCodeLength) (position : Nat) :
    ∃ E', E.enter limit position true = .ok E' ∧
      E'.Stands {} ((some (.ofNat n), r) :: around) (n + 1) size := by
  rw [← h.length_openings] at hd
  rw [← h.captures] at hn
  obtain ⟨b, hb, hsize⟩ :=
    CodeBuffer.exists_emit (i := .captureStart (.ofNat E.captures)) (h.room hroom)
  obtain ⟨E', hE, hsize⟩ : ∃ E', E.enter limit position true = .ok E' ∧
      E'.buffer.size = E.buffer.size := by
    unfold Emission.enter
    rw [if_neg (Nat.not_le_of_lt hd), if_pos rfl, if_pos hn]
    refine ⟨_, bind_ok (write_eq_ok (b := b) ?_ position) rfl, hsize⟩
    exact hb
  rcases h.shows.enter hE with ⟨hcapturing, -⟩ | ⟨-, -, hshows, hcaptures⟩
  · cases hcapturing
  · rw [h.captures] at hshows hcaptures
    exact ⟨E', hE, hshows, hcaptures, hsize.trans h.size⟩

/-- A level that has an open alternative can be closed. -/
theorem closeLevel (h : E.Stands r around n size) (hs : r.sequence = some e) (position : Nat) :
    ∃ E', E.closeLevel position = .ok ((Expr.alternation r.earlier e).footprint, E') ∧
      E'.buffer.code.toList = Around.code around ++ (Expr.alternation r.earlier e).code ∧
      E'.captures = n ∧ E'.openings = E.openings ∧ E'.buffer.size = size := by
  have hsequence := h.shows.level.sequence
  rw [hs] at hsequence
  obtain ⟨f, E', hE, hsize⟩ : ∃ f E', E.closeLevel position = .ok (f, E') ∧
      E'.buffer.size = E.buffer.size := by
    unfold Emission.closeLevel
    rw [hsequence]
    refine ⟨_, _, rfl, ?_⟩
    cases E.level.lastJump with
    | none => rfl
    | some last => exact CodeBuffer.size_patchJumps ..
  obtain ⟨e', hs', rfl, hcode, hcaptures, hopenings⟩ := h.shows.closeLevel hE
  obtain rfl := Option.some.inj (hs.symm.trans hs')
  exact ⟨E', hE, hcode, hcaptures.trans h.captures, hopenings, hsize.trans h.size⟩

theorem leave_group {outer : Reading} (h : E.Stands r ((none, outer) :: around) n size)
    (hs : r.sequence = some e) (position : Nat) :
    ∃ E', E.leave position false = .ok E' ∧
      E'.Stands (outer.place (Expr.alternation r.earlier e)) around n size := by
  obtain ⟨E₁, hclose, -, -, -, hsize⟩ := h.closeLevel hs position
  have hshow := h.shows.openings
  obtain ⟨E', hE, hsize⟩ : ∃ E', E.leave position false = .ok E' ∧ E'.buffer.size = size := by
    unfold Emission.leave
    cases ho : E.openings with
    | nil => rw [ho] at hshow; exact hshow.elim
    | cons o rest =>
      rw [ho] at hshow
      rw [hclose]
      dsimp only
      rw [hshow.1]
      exact ⟨_, rfl, hsize⟩
  obtain ⟨e', hs', hcaptures, ⟨-, -, hshows⟩ | ⟨_, hnone, -⟩⟩ := h.shows.leave hE
  · obtain rfl := Option.some.inj (hs.symm.trans hs')
    exact ⟨E', hE, hshows, hcaptures.trans h.captures, hsize⟩
  · cases hnone

theorem leave_capture {outer : Reading} {index : UInt8}
    (h : E.Stands r ((some index, outer) :: around) n size) (hs : r.sequence = some e)
    (hroom : (Around.code ((some index, outer) :: around)).length +
      (Expr.alternation r.earlier e).code.length + 3 ≤ Nat.min size maxCodeLength)
    (position : Nat) :
    ∃ E', E.leave position true = .ok E' ∧
      E'.Stands (outer.place (.capture index (Expr.alternation r.earlier e))) around n size := by
  obtain ⟨E₁, hclose, hcode, -, -, hsize⟩ := h.closeLevel hs position
  have hshow := h.shows.openings
  obtain ⟨b, hb, hsize'⟩ := CodeBuffer.exists_emit (b := E₁.buffer) (i := .captureEnd index) (by
    rw [CodeBuffer.location_eq, hcode, List.length_append, CodeBuffer.capacity, hsize]
    exact hroom)
  obtain ⟨E', hE, hsize⟩ : ∃ E', E.leave position true = .ok E' ∧ E'.buffer.size = size := by
    unfold Emission.leave
    cases ho : E.openings with
    | nil => rw [ho] at hshow; exact hshow.elim
    | cons o rest =>
      rw [ho] at hshow
      rw [hclose]
      dsimp only
      rw [hshow.1]
      refine ⟨_, bind_ok rfl (write_eq_ok (b := b) ?_ position), hsize'.trans hsize⟩
      exact hb
  obtain ⟨e', hs', hcaptures, ⟨hnone, -⟩ | ⟨index', hindex, -, hshows⟩⟩ := h.shows.leave hE
  · cases hnone
  · cases hindex
    obtain rfl := Option.some.inj (hs.symm.trans hs')
    exact ⟨E', hE, hshows, hcaptures.trans h.captures, hsize⟩

end Stands

/-! ### Several tokens -/

section

variable {limit : Nat} {t u : Token} {list rest : List Token}

theorem feed_cons_iff : (t :: rest).foldlM (Emission.feed limit) E = .ok E' ↔
    ∃ E₁, E.feed limit t = .ok E₁ ∧ rest.foldlM (Emission.feed limit) E₁ = .ok E' :=
  ⟨bind_eq_ok, fun ⟨_, h, h'⟩ => bind_ok h h'⟩

theorem feed_append_iff : (list ++ rest).foldlM (Emission.feed limit) E = .ok E' ↔
    ∃ E₁, list.foldlM (Emission.feed limit) E = .ok E₁ ∧
      rest.foldlM (Emission.feed limit) E₁ = .ok E' := by
  rw [List.foldlM_append]
  exact ⟨bind_eq_ok, fun ⟨_, h, h'⟩ => bind_ok h h'⟩

theorem feed_singleton_iff :
    [t].foldlM (Emission.feed limit) E = .ok E' ↔ E.feed limit t = .ok E' := by
  rw [feed_cons_iff]
  refine ⟨?_, fun h => ⟨E', h, rfl⟩⟩
  rintro ⟨E₁, h, h'⟩
  cases h'
  exact h

theorem feed_bracketed_iff : (t :: (list ++ [u])).foldlM (Emission.feed limit) E = .ok E' ↔
    ∃ E₁, E.feed limit t = .ok E₁ ∧ ∃ E₂, list.foldlM (Emission.feed limit) E₁ = .ok E₂ ∧
      E₂.feed limit u = .ok E' := by
  rw [feed_cons_iff]
  simp only [feed_append_iff, feed_singleton_iff]

end

end Emission

/-- Tokens between two brackets. -/
theorem exists_bracketed {opening closing : TokenKind} {tokens : List TokenKind}
    {list : List Token} (h : list.map (·.kind) = opening :: tokens ++ [closing]) :
    ∃ t inner u, list = t :: (inner ++ [u]) ∧ t.kind = opening ∧ inner.map (·.kind) = tokens ∧
      u.kind = closing := by
  rw [List.cons_append, List.map_eq_cons_iff] at h
  obtain ⟨t, rest, rfl, ht, hrest⟩ := h
  obtain ⟨inner, last, rfl, hinner, hlast⟩ := List.map_eq_append_iff.1 hrest
  obtain ⟨u, rfl, hu⟩ := List.map_eq_singleton_iff.1 hlast
  exact ⟨t, inner, u, rfl, ht, hinner, hu⟩

/-! ### Every phrase is taken -/

/-- Wherever a phrase of the category may start, tokens of these kinds are taken, if there is room
for the code of `e` and `d` more brackets may be open; and then `e` has been read. -/
def Taken (limit size : Nat) (c : Category) (n : Nat) (tokens : List TokenKind) (e : Expr)
    (n' d : Nat) : Prop :=
  ∀ (E : Emission) (r : Reading) (around : Around) (list : List Token),
    list.map (·.kind) = tokens → E.Stands r around n size → c.Starts r →
    around.length + d ≤ limit → r.extent around + e.code.length ≤ Nat.min size maxCodeLength →
    ∃ E' r', list.foldlM (Emission.feed limit) E = .ok E' ∧ E'.Stands r' around n' size ∧
      c.Extends r r' e

namespace Taken

variable {limit size n n₁ n' d d' : Nat} {tokens rest : List TokenKind} {e f : Expr}

/-- An element that is a single instruction. -/
theorem element {i : Instr} {kind : TokenKind} (hcode : i.encode = e.code)
    (hfeed : ∀ (E : Emission) (position : Nat),
      E.feed limit ⟨kind, position⟩ = E.element position i e.footprint) :
    Taken limit size .element n [kind] e n 0 := by
  intro E r around list hlist hE _ _ hroom
  obtain ⟨⟨kind, position⟩, rfl, rfl⟩ := List.map_eq_singleton_iff.1 hlist
  obtain ⟨E', hE', hstands⟩ := hE.element hcode hroom position
  exact ⟨E', r.place e, Emission.feed_singleton_iff.2 ((hfeed E position).trans hE'), hstands, rfl⟩

theorem group (h : Taken limit size .alternation n tokens e n' d) :
    Taken limit size .element n (.groupOpen :: tokens ++ [.groupClose]) e n' (d + 1) := by
  intro E r around list hlist hE _ hd hroom
  obtain ⟨⟨kind, position⟩, inner, ⟨kind', position'⟩, rfl, rfl, hinner, rfl⟩ :=
    exists_bracketed hlist
  have hlt : around.length < limit := by omega
  obtain ⟨E₁, hopen, hE₁⟩ := hE.enter_group hlt position
  obtain ⟨E₂, r₂, hfeed, hE₂, g, hg, rfl⟩ := h _ _ _ _ hinner hE₁ rfl
    (by rw [List.length_cons]; omega) (by rw [Reading.extent_enter]; exact hroom)
  obtain ⟨E₃, hclose, hE₃⟩ := hE₂.leave_group hg position'
  exact ⟨E₃, _, Emission.feed_bracketed_iff.2 ⟨E₁, hopen, E₂, hfeed, hclose⟩, hE₃, rfl⟩

theorem capture (hn : n < 255) (h : Taken limit size .alternation (n + 1) tokens e n' d) :
    Taken limit size .element n (.captureOpen :: tokens ++ [.captureClose])
      (.capture (.ofNat n) e) n' (d + 1) := by
  intro E r around list hlist hE _ hd hroom
  obtain ⟨⟨kind, position⟩, inner, ⟨kind', position'⟩, rfl, rfl, hinner, rfl⟩ :=
    exists_bracketed hlist
  have hlength : (Expr.capture (.ofNat n) e).code.length = 3 + e.code.length + 3 := by
    rw [Expr.code, List.length_append, List.length_append]
    rfl
  have hextent : ({} : Reading).extent ((some (.ofNat n), r) :: around) = r.extent around + 3 :=
    Reading.extent_enter r around (some (.ofNat n))
  rw [hlength] at hroom
  have hlt : around.length < limit := by omega
  obtain ⟨E₁, hopen, hE₁⟩ := hE.enter_capture hlt hn (by omega) position
  obtain ⟨E₂, r₂, hfeed, hE₂, g, hg, halternation⟩ := h _ _ _ _ hinner hE₁ rfl
    (by rw [List.length_cons]; omega) (by rw [hextent]; omega)
  change Expr.alternation r₂.earlier g = e at halternation
  -- The code inside is that of the alternation as a whole, however the level holds its parts.
  obtain ⟨E₃, hclose, hE₃⟩ := hE₂.leave_capture hg (by
    rw [halternation]
    change ({} : Reading).extent ((some (.ofNat n), r) :: around) + _ + 3 ≤ _
    rw [hextent]
    omega) position'
  rw [halternation] at hE₃
  exact ⟨E₃, _, Emission.feed_bracketed_iff.2 ⟨E₁, hopen, E₂, hfeed, hclose⟩, hE₃, rfl⟩

theorem single (h : Taken limit size .element n tokens e n' d) :
    Taken limit size .atom n tokens e n' d := by
  intro E r around list hlist hE _ hd hroom
  obtain ⟨E', r', hfeed, hE', hext⟩ := h _ _ _ _ hlist hE trivial hd hroom
  exact ⟨E', r', hfeed, hE', hext.single⟩

theorem quantified (q : Quantifier) (hnull : e.nullable = false)
    (h : Taken limit size .element n tokens e n' d) :
    Taken limit size .atom n (tokens ++ [.quantifier q]) (.repetition e q) n' d := by
  intro E r around list hlist hE _ hd hroom
  have hlength : (Expr.repetition e q).code.length =
      e.code.length + (7 + if e.isLeaf then 0 else 4) := by
    rw [Expr.length_code_repetition]
    split <;> omega
  rw [hlength] at hroom
  obtain ⟨first, last, rfl, hfirst, hlast⟩ := List.map_eq_append_iff.1 hlist
  obtain ⟨⟨kind, position⟩, rfl, rfl⟩ := List.map_eq_singleton_iff.1 hlast
  obtain ⟨E₁, r₁, hfeed, hE₁, hext⟩ := h _ _ _ _ hfirst hE trivial hd (by omega)
  obtain ⟨E₂, hquantify, hE₂⟩ := hE₁.quantify (q := q) (by rw [hext]; rfl) hnull
    (by rw [Reading.extent_eq hext trivial]; omega) position
  refine ⟨E₂, _, Emission.feed_append_iff.2 ⟨E₁, hfeed, ?_⟩, hE₂, hext.quantified q⟩
  exact Emission.feed_singleton_iff.2 hquantify

theorem one (h : Taken limit size .atom n tokens e n' d) :
    Taken limit size .sequence n tokens e n' d := by
  intro E r around list hlist hE hr hd hroom
  obtain ⟨E', r', hfeed, hE', hext⟩ := h _ _ _ _ hlist hE trivial hd hroom
  exact ⟨E', r', hfeed, hE', hext.one hr⟩

theorem more (h : Taken limit size .sequence n tokens e n₁ d)
    (h' : Taken limit size .atom n₁ rest f n' d') :
    Taken limit size .sequence n (tokens ++ rest) (.seq e f) n' (Nat.max d d') := by
  intro E r around list hlist hE hr hd hroom
  rw [Expr.code, List.length_append] at hroom
  obtain ⟨hle, hle'⟩ := Nat.max_le.1 (Nat.le_sub_of_add_le' hd)
  obtain ⟨first, second, rfl, hfirst, hsecond⟩ := List.map_eq_append_iff.1 hlist
  obtain ⟨E₁, r₁, hfeed, hE₁, hext⟩ := h _ _ _ _ hfirst hE hr (by omega) (by omega)
  obtain ⟨E₂, r₂, hfeed', hE₂, hext'⟩ := h' _ _ _ _ hsecond hE₁ trivial (by omega)
    (by rw [Reading.extent_eq hext hr]; omega)
  exact ⟨E₂, r₂, Emission.feed_append_iff.2 ⟨E₁, hfeed, hfeed'⟩, hE₂, hext.more hext'⟩

theorem last (h : Taken limit size .sequence n tokens e n' d) :
    Taken limit size .alternation n tokens e n' d := by
  intro E r around list hlist hE hr hd hroom
  obtain ⟨E', r', hfeed, hE', hext⟩ := h _ _ _ _ hlist hE hr hd hroom
  exact ⟨E', r', hfeed, hE', hext.last⟩

theorem either (h : Taken limit size .sequence n tokens e n₁ d)
    (h' : Taken limit size .alternation n₁ rest f n' d') :
    Taken limit size .alternation n (tokens ++ .alternation :: rest) (.alt e f) n'
      (Nat.max d d') := by
  intro E r around list hlist hE hr hd hroom
  rw [Expr.code, List.length_append, length_alternativeCode] at hroom
  obtain ⟨hle, hle'⟩ := Nat.max_le.1 (Nat.le_sub_of_add_le' hd)
  obtain ⟨first, others, rfl, hfirst, hothers⟩ := List.map_eq_append_iff.1 hlist
  obtain ⟨⟨kind, position⟩, second, rfl, rfl, hsecond⟩ := List.map_eq_cons_iff.1 hothers
  obtain ⟨E₁, r₁, hfeed, hE₁, hext⟩ := h _ _ _ _ hfirst hE hr (by omega) (by omega)
  have hextent := Reading.extent_eq hext hr around
  obtain ⟨E₂, halternate, hE₂⟩ := hE₁.alternate hext.2 (by rw [hextent]; omega) position
  obtain ⟨E₃, r₃, hfeed', hE₃, hext'⟩ := h' _ _ _ _ hsecond hE₂ rfl (by omega)
    (by rw [Reading.extent_alternate hext.2, hextent]; omega)
  refine ⟨E₃, r₃, Emission.feed_append_iff.2 ⟨E₁, hfeed, ?_⟩, hE₃, hext.either hext'⟩
  exact Emission.feed_cons_iff.2 ⟨E₂, halternate, hfeed'⟩

end Taken

/-- **Every phrase is taken** whose captures can be numbered and whose repetitions consume. -/
theorem Phrase.taken {limit size : Nat} {c : Category} {n n' d : Nat} {tokens : List TokenKind}
    {e : Expr} (h : Phrase c n tokens e n' d) (hn : n' ≤ 255) (he : e.RepeatsConsume) :
    Taken limit size c n tokens e n' d := by
  induction h with
  | byte n b => exact .element (i := .byte b) rfl fun _ _ => rfl
  | set n s => exact .element (i := s.toInstr) rfl fun _ _ => rfl
  | anyByte => exact .element (i := .anyByte) rfl fun _ _ => rfl
  | inputStart => exact .element (i := .inputStart) rfl fun _ _ => rfl
  | inputEnd => exact .element (i := .inputEnd) rfl fun _ _ => rfl
  | group _ ih => exact (ih hn he).group
  | capture h ih => exact (ih hn he).capture (Nat.lt_of_lt_of_le h.le hn)
  | single _ ih => exact (ih hn he).single
  | quantified q _ ih => exact (ih hn he.2).quantified q he.1
  | one _ ih => exact (ih hn he).one
  | more _ h' ih ih' => exact (ih (Nat.le_trans h'.le hn) he.1).more (ih' hn he.2)
  | last _ ih => exact (ih hn he).last
  | either _ h' ih ih' => exact (ih (Nat.le_trans h'.le hn) he.1).either (ih' hn he.2)

/-! ### What is taken is not nested too deep -/

/-- An opening bracket finds room among the open ones, and opens a level. -/
theorem Emission.Shows.deeper {E E' : Emission} {r : Reading} {around : Around}
    {limit position : Nat} {capturing : Bool} (h : E.Shows r around)
    (hE : E.enter limit position capturing = .ok E') :
    around.length < limit ∧ ∃ outer r', E'.Shows r' (outer :: around) := by
  have hlt : E.openings.length < limit := by
    unfold Emission.enter at hE
    split at hE
    · cases hE
    · next hlt => exact Nat.lt_of_not_le hlt
  rw [h.openings.length_eq] at hlt
  rcases h.enter hE with ⟨-, hE', -⟩ | ⟨-, -, hE', -⟩ <;> exact ⟨hlt, _, _, hE'⟩

/-- A closing bracket goes back to the level around. -/
theorem Emission.Shows.shallower {E E' : Emission} {r : Reading} {around : Around}
    {outer : Option UInt8 × Reading} {position : Nat} {capturing : Bool}
    (h : E.Shows r (outer :: around)) (hE : E.leave position capturing = .ok E') :
    ∃ r', E'.Shows r' around := by
  obtain ⟨capture, outer⟩ := outer
  obtain ⟨_, -, -, ⟨-, -, hE'⟩ | ⟨_, -, -, hE'⟩⟩ := h.leave hE <;> exact ⟨_, hE'⟩

/-- An element that is a single instruction is placed in the level. -/
theorem Emission.Shows.of_feed_element {E E' : Emission} {r : Reading} {around : Around} {i : Instr}
    {e : Expr} {kind : TokenKind} {limit : Nat} {list : List Token} (h : E.Shows r around)
    (hcode : i.encode = e.code) (hlist : list.map (·.kind) = [kind])
    (hfeed : ∀ position, E.feed limit ⟨kind, position⟩ = E.element position i e.footprint)
    (hE : list.foldlM (Emission.feed limit) E = .ok E') : E'.Shows (r.place e) around := by
  obtain ⟨⟨kind, position⟩, rfl, rfl⟩ := List.map_eq_singleton_iff.1 hlist
  exact (h.element hcode ((hfeed position).symm.trans (feed_singleton_iff.1 hE))).1

/-- **What is taken is not nested beyond the limit.** -/
theorem Phrase.nesting_le {c : Category} {n n' d : Nat} {tokens : List TokenKind} {e : Expr}
    (h : Phrase c n tokens e n' d) {limit : Nat} {E E' : Emission} {r : Reading} {around : Around}
    {list : List Token} (hlist : list.map (·.kind) = tokens) (hE : E.Shows r around)
    (hfeed : list.foldlM (Emission.feed limit) E = .ok E') (hle : around.length ≤ limit) :
    around.length + d ≤ limit ∧ ∃ r', E'.Shows r' around := by
  induction h generalizing E E' r around list with
  | byte n b =>
    exact ⟨hle, _, hE.of_feed_element (i := .byte b) (e := .leaf (.byte b)) rfl hlist
      (fun _ => rfl) hfeed⟩
  | set n s =>
    exact ⟨hle, _, hE.of_feed_element (i := s.toInstr) (e := .leaf (.set s)) rfl hlist
      (fun _ => rfl) hfeed⟩
  | anyByte =>
    exact ⟨hle, _, hE.of_feed_element (i := .anyByte) (e := .leaf .anyByte) rfl hlist
      (fun _ => rfl) hfeed⟩
  | inputStart =>
    exact ⟨hle, _, hE.of_feed_element (i := .inputStart) (e := .anchor .start) rfl hlist
      (fun _ => rfl) hfeed⟩
  | inputEnd =>
    exact ⟨hle, _, hE.of_feed_element (i := .inputEnd) (e := .anchor .stop) rfl hlist
      (fun _ => rfl) hfeed⟩
  | @group _ _ d _ _ _ ih | @capture _ _ d _ _ _ ih =>
    obtain ⟨⟨kind, position⟩, inner, ⟨kind', position'⟩, rfl, rfl, hinner, rfl⟩ :=
      exists_bracketed hlist
    obtain ⟨E₁, hopen, E₂, hinside, hclose⟩ := Emission.feed_bracketed_iff.1 hfeed
    obtain ⟨hlt, _, _, hE₁⟩ := hE.deeper hopen
    obtain ⟨hdeep, _, hE₂⟩ := ih hinner hE₁ hinside hlt
    exact ⟨Nat.add_right_comm _ 1 d ▸ hdeep, hE₂.shallower hclose⟩
  | single _ ih | one _ ih | last _ ih => exact ih hlist hE hfeed hle
  | quantified q _ ih =>
    obtain ⟨first, last, rfl, hfirst, hlast⟩ := List.map_eq_append_iff.1 hlist
    obtain ⟨⟨kind, position⟩, rfl, rfl⟩ := List.map_eq_singleton_iff.1 hlast
    obtain ⟨E₁, hfeed, hlast⟩ := Emission.feed_append_iff.1 hfeed
    obtain ⟨hdeep, r₁, hE₁⟩ := ih hfirst hE hfeed hle
    obtain ⟨_, -, -, hE', -⟩ := hE₁.quantify (Emission.feed_singleton_iff.1 hlast)
    exact ⟨hdeep, _, hE'⟩
  | more _ _ ih ih' =>
    obtain ⟨first, second, rfl, hfirst, hsecond⟩ := List.map_eq_append_iff.1 hlist
    obtain ⟨E₁, hfeed, hfeed'⟩ := Emission.feed_append_iff.1 hfeed
    obtain ⟨hdeep, r₁, hE₁⟩ := ih hfirst hE hfeed hle
    obtain ⟨hdeep', hE'⟩ := ih' hsecond hE₁ hfeed' hle
    exact ⟨Nat.add_max_add_left .. ▸ Nat.max_le.2 ⟨hdeep, hdeep'⟩, hE'⟩
  | either _ _ ih ih' =>
    obtain ⟨first, others, rfl, hfirst, hothers⟩ := List.map_eq_append_iff.1 hlist
    obtain ⟨⟨kind, position⟩, second, rfl, rfl, hsecond⟩ := List.map_eq_cons_iff.1 hothers
    obtain ⟨E₁, hfeed, hothers⟩ := Emission.feed_append_iff.1 hfeed
    obtain ⟨E₂, halternate, hfeed'⟩ := Emission.feed_cons_iff.1 hothers
    obtain ⟨hdeep, r₁, hE₁⟩ := ih hfirst hE hfeed hle
    obtain ⟨_, -, hE₂, -⟩ := hE₁.alternate halternate
    obtain ⟨hdeep', hE'⟩ := ih' hsecond hE₂ hfeed' hle
    exact ⟨Nat.add_max_add_left .. ▸ Nat.max_le.2 ⟨hdeep, hdeep'⟩, hE'⟩

end BoundedRegex
