import BoundedRegex.Compile.Compiler
import BoundedRegex.Proofs.Code.Buffer
import BoundedRegex.Proofs.Compile.Reading

/-!
# The compiler writes the code of what it has read

`Emission.Shows` ties a compilation under way to a reading: the buffer holds the code of what has
been read, each level starts where it should, and the footprints are those of the expressions.
Every token keeps to it (`Emission.Shows.feed`), and at the end the buffer holds the code of the
whole expression (`Emission.Shows.finish`).
-/

namespace BoundedRegex

/-! ### Footprints -/

theorem Footprint.or_assoc (a b c : Footprint) : (a.or b).or c = a.or (b.or c) := by
  simp only [Footprint.or, Bool.or_assoc, Footprint.mk.injEq, true_and]
  exact ⟨Nat.max_assoc .., Nat.max_assoc ..⟩

/-- The footprint of some alternatives, the last of them in front, with others behind them. -/
def pendingFootprint : List Expr → Option Footprint
  | [] => none
  | e :: earlier =>
    match pendingFootprint earlier with
    | some f => some (f.or e.footprint.withSplit)
    | none => some e.footprint.withSplit

theorem footprint_alternation (earlier : List Expr) (e : Expr) :
    (Expr.alternation earlier e).footprint =
      match pendingFootprint earlier with
      | some f => f.or e.footprint
      | none => e.footprint := by
  induction earlier generalizing e with
  | nil => rfl
  | cons f earlier ih =>
    rw [Expr.alternation, ih, pendingFootprint]
    cases pendingFootprint earlier with
    | none => rfl
    | some g => exact (Footprint.or_assoc ..).symm

/-- A loop keeps frames if the footprint of its body asks for it. -/
theorem needsFrames_footprint (e : Expr) (q : Quantifier) :
    e.footprint.needsFrames q.max = e.keepsFrames q := by
  have hsat : decide (0 < Expr.sat e.residual) = decide (0 < e.residual) :=
    decide_eq_decide.2 (Expr.sat_pos _)
  rw [e.footprint_eq, Footprint.needsFrames, hsat, Expr.keepsFrames]
  cases hleaf : e.isLeaf with
  | true => simp [Expr.residual_of_isLeaf hleaf]
  | false => simp

/-! ### Levels -/

/-- A level whose code starts at an address shows a reading. -/
structure Level.Shows (l : Level) (r : Reading) (base : Nat) : Prop where
  start : l.start = base + (Expr.pendingCode r.earlier).length
  alternatives : l.alternatives = pendingFootprint r.earlier
  lastJump : l.lastJump = if r.earlier.isEmpty then none else some (l.start - 4)
  atoms : l.atoms = r.atoms.map Expr.footprint
  operand : l.operand.map (·.footprint) = r.operand.map Expr.footprint
  operandStart : ∀ o ∈ l.operand, o.start = l.start + (Reading.optionCode r.atoms).length

namespace Level.Shows

variable {l : Level} {r : Reading} {base : Nat}

/-- Footprints join as the expressions do. -/
theorem sequence_eq {l : Level} {r : Reading} (ha : l.atoms = r.atoms.map Expr.footprint)
    (ho : l.operand.map (·.footprint) = r.operand.map Expr.footprint) :
    l.sequence = r.sequence.map Expr.footprint := by
  unfold Level.sequence Reading.sequence
  rw [ha]
  cases hl : l.operand with
  | none =>
    rw [hl] at ho
    cases hr : r.operand with
    | none => cases r.atoms <;> rfl
    | some f => rw [hr] at ho; cases ho
  | some o =>
    rw [hl] at ho
    cases hr : r.operand with
    | none => rw [hr] at ho; cases ho
    | some f =>
      rw [hr] at ho
      have hof : o.footprint = f.footprint := Option.some.inj ho
      cases r.atoms with
      | none => exact congrArg some hof
      | some e => exact congrArg (fun g => some (e.footprint.andThen g)) hof

theorem sequence (h : l.Shows r base) : l.sequence = r.sequence.map Expr.footprint :=
  sequence_eq h.atoms h.operand

theorem place (h : l.Shows r base) (o : Operand) {e : Expr} (ho : o.footprint = e.footprint)
    (hstart : o.start = base + r.code.length) : (l.place o).Shows (r.place e) base where
  start := h.start
  alternatives := h.alternatives
  lastJump := h.lastJump
  atoms := h.sequence
  operand := congrArg some ho
  operandStart o' ho' := by
    cases ho'
    rw [hstart, Reading.code, List.length_append, ← Nat.add_assoc, ← h.start]
    rfl

theorem empty (base : Nat) : ({ start := base } : Level).Shows {} base :=
  ⟨rfl, rfl, rfl, rfl, rfl, nofun⟩

end Level.Shows

/-! ### Compilations -/

theorem bind_eq_ok {ε α β : Type} {x : Except ε α} {f : α → Except ε β} {b : β}
    (h : x >>= f = .ok b) : ∃ a, x = .ok a ∧ f a = .ok b := by
  cases x with
  | error => cases h
  | ok a => exact ⟨a, rfl, h⟩

/-- Brackets that are open show what has been read around them. -/
def Opening.Show : List Opening → Around → Prop
  | [], [] => True
  | o :: outer, (capture, r) :: around =>
    o.capture = capture ∧ o.start = (Around.code around).length + r.code.length ∧
      o.around.Shows r (Around.code around).length ∧ Opening.Show outer around
  | _, _ => False

/-- A compilation shows what has been read in the level, and around it. -/
structure Emission.Shows (E : Emission) (r : Reading) (around : Around) : Prop where
  code : E.buffer.code.toList = Around.code around ++ r.code
  level : E.level.Shows r (Around.code around).length
  openings : Opening.Show E.openings around

namespace Emission

variable {E E' : Emission} {r : Reading} {around : Around} {position : Nat}

/-- What a change to the code does to a compilation. -/
theorem write_eq {f : CodeBuffer → Option CodeBuffer} (h : E.write position f = .ok E') :
    ∃ b, f E.buffer = some b ∧ E' = { E with buffer := b } := by
  cases E with
  | mk buffer captures loopBound level openings =>
    simp only [write] at h
    split at h
    · next b hb =>
      cases h
      exact ⟨b, hb, rfl⟩
    · cases h

namespace Shows

theorem location_eq (h : E.Shows r around) :
    E.buffer.location = (Around.code around).length + r.code.length := by
  rw [E.buffer.location_eq, h.code, List.length_append]

theorem element {i : Instr} {e : Expr} (h : E.Shows r around) (hcode : i.encode = e.code)
    (hE : E.element position i e.footprint = .ok E') :
    E'.Shows (r.place e) around ∧ E'.captures = E.captures := by
  obtain ⟨b, hb, rfl⟩ := write_eq hE
  refine ⟨⟨?_, h.level.place _ rfl h.location_eq, h.openings⟩, rfl⟩
  show b.code.toList = _
  rw [CodeBuffer.emit_code hb, h.code, hcode, r.code_place, List.append_assoc]

theorem quantify {q : Quantifier} (h : E.Shows r around) (hE : E.quantify position q = .ok E') :
    ∃ e, r.operand = some e ∧ e.nullable = false ∧ E'.Shows (r.quantify e q) around ∧
      E'.captures = E.captures := by
  unfold Emission.quantify at hE
  cases ho : E.level.operand with
  | none => rw [ho] at hE; cases hE
  | some o =>
    have hoperand := h.level.operand
    have hstart := h.level.operandStart o ho
    rw [ho] at hoperand hE
    cases hr : r.operand with
    | none => rw [hr] at hoperand; cases hoperand
    | some e =>
      rw [hr] at hoperand
      have hof : o.footprint = e.footprint := Option.some.inj hoperand
      dsimp only at hE
      rw [hof] at hE
      split at hE
      · cases hE
      · next hnull =>
        obtain ⟨E₁, hwrite, hE⟩ := bind_eq_ok hE
        obtain ⟨b, hb, rfl⟩ := write_eq hwrite
        cases hE
        have hsingle : e.footprint.singleByte = e.isLeaf := by rw [e.footprint_eq]
        rw [hsingle, needsFrames_footprint] at hb
        refine ⟨e, rfl, ?_, ⟨?_, ?_, h.openings⟩, rfl⟩
        · rw [e.footprint_eq] at hnull
          exact eq_false_of_ne_true hnull
        · have hcode := h.code
          rw [Reading.code_of_operand hr, ← List.append_assoc] at hcode
          show b.code.toList = _
          rw [CodeBuffer.makeLoop_code hcode ?_ hb, Reading.code_quantify, List.append_assoc]
          rw [hstart, h.level.start, List.length_append, List.length_append, Nat.add_assoc]
        · exact {
            start := h.level.start
            alternatives := h.level.alternatives
            lastJump := h.level.lastJump
            atoms := Level.Shows.sequence_eq h.level.atoms rfl
            operand := rfl
            operandStart := nofun }

/-- The alternative that is open ends: a split goes in front of it, and a jump behind it. -/
theorem alternate (h : E.Shows r around) (hE : E.alternate position = .ok E') :
    ∃ e, r.sequence = some e ∧ E'.Shows (r.alternate e) around ∧ E'.captures = E.captures := by
  unfold Emission.alternate at hE
  have hsequence := h.level.sequence
  cases hr : r.sequence with
  | none => rw [hsequence, hr] at hE; cases hE
  | some e =>
    rw [hsequence, hr] at hE
    obtain ⟨E₁, hwrite, hE⟩ := bind_eq_ok hE
    obtain ⟨b₁, hinsert, rfl⟩ := write_eq hwrite
    obtain ⟨E₂, hwrite, hE⟩ := bind_eq_ok hE
    obtain ⟨b₂, hjump, rfl⟩ := write_eq hwrite
    cases hE
    have hcode := h.code
    rw [Reading.code_of_sequence hr] at hcode
    change b₁.emitJump E.level.lastJump = some b₂ at hjump
    rw [h.level.lastJump] at hjump
    obtain ⟨hlocation₁, hlocation₂, hset⟩ :=
      CodeBuffer.alternative_code hcode h.level.start hinsert hjump
    have hstart : b₂.location =
        (Around.code around).length + (Expr.pendingCode (e :: r.earlier)).length := by
      rw [hlocation₂, h.level.start, Expr.length_pendingCode_cons, Nat.add_assoc]
    refine ⟨e, rfl, ⟨?_, ⟨hstart, ?_, ?_, ?_, ?_, ?_⟩, h.openings⟩, rfl⟩
    · rw [Reading.code_alternate]
      exact hset
    · show some (E.level.addAlternative e.footprint.withSplit) = pendingFootprint (e :: r.earlier)
      rw [Level.addAlternative, h.level.alternatives, pendingFootprint]
      cases pendingFootprint r.earlier <;> rfl
    · show some b₁.location = some (b₂.location - 4)
      rw [hlocation₁, hlocation₂]
      exact congrArg some (by omega)
    · rfl
    · rfl
    · exact nofun

/-- The whole of a level is the alternation of what has been read. -/
theorem closeLevel {f : Footprint} (h : E.Shows r around)
    (hE : E.closeLevel position = .ok (f, E')) :
    ∃ e, r.sequence = some e ∧ f = (Expr.alternation r.earlier e).footprint ∧
      E'.buffer.code.toList = Around.code around ++ (Expr.alternation r.earlier e).code ∧
      E'.captures = E.captures ∧ E'.openings = E.openings := by
  unfold Emission.closeLevel at hE
  have hsequence := h.level.sequence
  cases hr : r.sequence with
  | none => rw [hsequence, hr] at hE; cases hE
  | some e =>
    rw [hsequence, hr] at hE
    cases hE
    have hcode := h.code
    rw [Reading.code_of_sequence hr] at hcode
    refine ⟨e, rfl, ?_, ?_, ?_, ?_⟩
    · cases hpending : pendingFootprint r.earlier <;>
        simp [Level.addAlternative, h.level.alternatives, footprint_alternation, hpending]
    · have hjump := h.level.lastJump
      cases hearlier : r.earlier with
      | nil =>
        rw [hearlier] at hjump hcode
        rw [hjump]
        exact hcode
      | cons f earlier =>
        have hstart := h.level.start
        rw [hearlier] at hjump hcode hstart
        rw [hjump]
        show (E.buffer.patchJumps (E.level.start - 4) E.buffer.location).code.toList = _
        have hlast : E.level.start - 4 + 4 =
            (Around.code around).length + (Expr.pendingCode (f :: earlier)).length := by
          rw [hstart, Expr.length_pendingCode_cons]
          omega
        refine (CodeBuffer.patchJumps_code hcode hlast rfl).trans ?_
        rw [Expr.closedCode_code]
    · cases E.level.lastJump <;> rfl
    · cases E.level.lastJump <;> rfl

/-- A bracket opens: what has been read so far is around it. -/
theorem enter {limit : Nat} {capturing : Bool} (h : E.Shows r around)
    (hE : E.enter limit position capturing = .ok E') :
    (capturing = false ∧ E'.Shows {} ((none, r) :: around) ∧ E'.captures = E.captures) ∨
      (capturing = true ∧ E.captures < 255 ∧
        E'.Shows {} ((some (.ofNat E.captures), r) :: around) ∧ E'.captures = E.captures + 1) := by
  unfold Emission.enter at hE
  split at hE
  · cases hE
  · cases capturing with
    | false =>
      cases hE
      refine Or.inl ⟨rfl, ⟨?_, ?_, rfl, h.location_eq, h.level, h.openings⟩, rfl⟩
      · show E.buffer.code.toList = Around.code around ++ (r.code ++ []) ++ []
        rw [List.append_nil, List.append_nil]
        exact h.code
      · show ({ start := E.buffer.location } : Level).Shows {} _
        rw [E.buffer.location_eq, h.code, ← List.append_nil r.code]
        exact .empty _
    | true =>
      rw [if_pos rfl] at hE
      split at hE
      · next hlt =>
        obtain ⟨E₁, hwrite, hE⟩ := bind_eq_ok hE
        obtain ⟨b, hb, rfl⟩ := write_eq hwrite
        cases hE
        have hcode := CodeBuffer.emit_code hb
        rw [h.code, List.append_assoc] at hcode
        refine Or.inr ⟨rfl, hlt, ⟨?_, ?_, rfl, h.location_eq, h.level, h.openings⟩, rfl⟩
        · exact hcode.trans (List.append_nil _).symm
        · show ({ start := b.location } : Level).Shows {} _
          rw [b.location_eq, hcode]
          exact .empty _
      · cases hE

/-- A bracket closes: what is inside it becomes the operand of what was read around it. -/
theorem leave {capturing : Bool} {capture : Option UInt8} {outer : Reading}
    (h : E.Shows r ((capture, outer) :: around)) (hE : E.leave position capturing = .ok E') :
    ∃ e, r.sequence = some e ∧ E'.captures = E.captures ∧
      ((capture = none ∧ capturing = false ∧
          E'.Shows (outer.place (Expr.alternation r.earlier e)) around) ∨
        ∃ index, capture = some index ∧ capturing = true ∧
          E'.Shows (outer.place (.capture index (Expr.alternation r.earlier e))) around) := by
  unfold Emission.leave at hE
  have hopenings := h.openings
  cases ho : E.openings with
  | nil => rw [ho] at hopenings; exact hopenings.elim
  | cons o rest =>
    rw [ho] at hopenings hE
    obtain ⟨hcapture, hstart, haround, hrest⟩ := hopenings
    obtain ⟨⟨f, E₁⟩, hclose, hE⟩ := bind_eq_ok hE
    obtain ⟨e, he, rfl, hcode, hcaptures, -⟩ := h.closeLevel hclose
    have hcode' : E₁.buffer.code.toList = Around.code around ++ (outer.code ++
        (openingCode capture ++ (Expr.alternation r.earlier e).code)) := by
      rw [hcode, Around.code]
      simp only [List.append_assoc]
    cases capture with
    | none =>
      cases capturing with
      | true => rw [hcapture] at hE; cases hE
      | false =>
        rw [hcapture] at hE
        cases hE
        refine ⟨e, he, hcaptures, Or.inl ⟨rfl, rfl, ?_, haround.place _ rfl hstart, hrest⟩⟩
        rw [Reading.code_place]
        exact hcode'
    | some index =>
      cases capturing with
      | false => rw [hcapture] at hE; cases hE
      | true =>
        rw [hcapture] at hE
        obtain ⟨b, hb, rfl⟩ := write_eq hE
        refine ⟨e, he, hcaptures, Or.inr ⟨index, rfl, rfl, ?_, haround.place _ rfl hstart, hrest⟩⟩
        show b.code.toList = _
        rw [CodeBuffer.emit_code hb, Reading.code_place]
        show E₁.buffer.code.toList ++ _ = _
        rw [hcode', Expr.code]
        simp only [List.append_assoc]
        rfl

end Shows

end Emission

end BoundedRegex
