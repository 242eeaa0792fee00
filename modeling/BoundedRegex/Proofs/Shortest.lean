import BoundedRegex.Proofs.Code.Buffer

/-!
# The instruction of a set, in its shortest form

A set is written as one instruction, whatever its bits and its polarity (`ByteSet.emit_toInstr`).  The
ranges that it may be written as are the runs of the bits, so they leave out what an inverted set
contains, and the instruction says so.
-/

namespace BoundedRegex.ByteSet

/-- An instruction that accepts the bytes of a set, is a plain byte just if that byte alone is
contained, and is no longer than the ranges of the set or its bits would be. -/
structure IsShortest (s : ByteSet) (i : Instr) : Prop where
  accepts : ∀ b, i.accepts b = s.contains b
  byte_iff : ∀ b, i = .byte b ↔ ∀ c, s.contains c = true ↔ c = b
  le_ranges : i.encode.length ≤ (Instr.ranges s.inverted s.runs).encode.length
  le_bitmap : i.encode.length ≤ (Instr.bitmap s.inverted s.bits).encode.length

/-- **A set is written as one instruction, the shortest for it.**  Where there is room the instruction
goes behind the code that stands already, and from there it is read back with its size, whatever
follows.  It accepts the bytes that the set contains and no others, and is as short as it can be; the
ranges that it may consist of are the maximal runs of the bits, in ascending order. -/
theorem emit_toInstr (s : ByteSet) {b : CodeBuffer}
    (h : b.location + s.toInstr.encode.length ≤ b.capacity) :
    s.ListsRuns s.runs ∧ s.IsShortest s.toInstr ∧
      ∃ b', b.emit s.toInstr = some b' ∧ b'.code.toList = b.code.toList ++ s.toInstr.encode ∧
        ∀ rest, Instr.decode? (b'.code.toList.drop b.location ++ rest) =
          some (s.toInstr, s.toInstr.encode.length) := by
  have hlength := s.length_toInstr_le
  have hshortest : s.IsShortest s.toInstr :=
    { accepts := s.accepts_toInstr
      byte_iff := fun _ => toInstr_eq_byte_iff
      le_ranges := hlength.1
      le_bitmap := hlength.2 }
  refine ⟨s.listsRuns_runs, hshortest, ?_⟩
  obtain ⟨b', hemit, -⟩ := CodeBuffer.exists_emit h
  have hcode := CodeBuffer.emit_code hemit
  refine ⟨b', hemit, hcode, fun rest => ?_⟩
  rw [hcode, List.drop_left' b.location_eq.symm]
  exact Instr.decode?_encode s.encodable_toInstr rest

/-- An inverted set that contains the escape byte alone is that byte, written twice. -/
theorem emit_toInstr_escapeByte :
    let s : ByteSet := { bits := ~~~bitSpan escapeByte.toNat 1, inverted := true }
    let b : CodeBuffer := .ofRoom [0, 0]
    b.location + s.toInstr.encode.length ≤ b.capacity ∧
      ∃ b', b.emit s.toInstr = some b' ∧ b'.code.toList = [escapeByte, escapeByte] ∧
        ∀ rest, Instr.decode? (b'.code.toList ++ rest) = some (.byte escapeByte, 2) := by
  intro s b
  have hs : s.toInstr = .byte escapeByte := by decide +kernel
  have hroom : b.location + s.toInstr.encode.length ≤ b.capacity := by
    rw [hs]
    decide
  obtain ⟨-, -, b', hemit, hcode, hdecode⟩ := s.emit_toInstr hroom
  rw [hs] at hcode hdecode
  exact ⟨hroom, b', hemit, hcode, hdecode⟩

end BoundedRegex.ByteSet
