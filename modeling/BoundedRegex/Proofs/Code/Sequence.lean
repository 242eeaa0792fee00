import BoundedRegex.Proofs.Code.Buffer
import BoundedRegex.Regex.Load

/-!
# Sequences of instructions

Instructions that are written one after another are read back one after another, each at the
address where it was written (`Instr.read_sequence`).  Nothing marks where one ends and the next
begins but the bytes of the first, and a byte to be matched has no mark at all.

* `CodeBuffer.writeAll` — writes instructions; one that holds an offset is written with an offset
  of zero, which is then set.
* `CodeBuffer.exists_writeAll` — what is written is the bytes of the instructions, in their order.
* `locate_sequence` — what is read from these bytes.
* `Instr.sequence_injective` — no other instructions have the same bytes.
-/

namespace BoundedRegex

/-- Instructions that follow one another from an address on. -/
def Located.sequence (addr : Nat) : List Instr → List Located
  | [] => []
  | i :: rest => ⟨addr, i, i.encode.length⟩ :: sequence (addr + i.encode.length) rest

theorem Located.map_instr_sequence (addr : Nat) (is : List Instr) :
    (sequence addr is).map Located.instr = is := by
  induction is generalizing addr with
  | nil => rfl
  | cons i is ih => rw [sequence, List.map_cons, ih]

/-! ### Writing -/

namespace Instr

/-- The offset that an instruction holds. -/
def offset? : Instr → Option Int16
  | split offset | jump offset | loopEnd offset => some offset
  | _ => none

/-- An instruction with another offset, if it holds one. -/
def withOffset (offset : Int16) : Instr → Instr
  | split _ => split offset
  | jump _ => jump offset
  | loopEnd _ => loopEnd offset
  | i => i

end Instr

namespace CodeBuffer

/-- Writes an instruction at the end: an offset is zero at first, and then set. -/
def write (b : CodeBuffer) (i : Instr) : Option CodeBuffer :=
  match i.offset? with
  | some offset => (b.emit (i.withOffset 0)).map (·.setOffset b.location offset)
  | none => b.emit i

/-- Writes instructions one after another. -/
def writeAll (b : CodeBuffer) (is : List Instr) : Option CodeBuffer :=
  is.foldlM write b

/-- With enough room an instruction is written as its bytes. -/
theorem exists_write {b : CodeBuffer} {i : Instr}
    (h : b.location + i.encode.length ≤ b.capacity) :
    ∃ b', b.write i = some b' ∧ b'.size = b.size ∧
      b'.code.toList = b.code.toList ++ i.encode := by
  -- An instruction that holds an offset takes the same room with any offset.
  have hset {opcode : UInt8} {zero : Instr} {offset : Int16}
      (hzero : zero.encode = escapeByte :: opcode :: Instr.offsetBytes 0)
      (h : b.location + 4 ≤ b.capacity) :
      ∃ b', (b.emit zero).map (·.setOffset b.location offset) = some b' ∧ b'.size = b.size ∧
        b'.code.toList = b.code.toList ++ escapeByte :: opcode :: Instr.offsetBytes offset := by
    have hroom : b.location + zero.encode.length ≤ b.capacity := by rw [hzero]; exact h
    obtain ⟨b', hemit, hsize⟩ := exists_emit hroom
    have hcode : b'.code.toList =
        b.code.toList ++ (escapeByte :: opcode :: Instr.offsetBytes 0 ++ []) := by
      rw [emit_code hemit, hzero, List.append_nil]
    refine ⟨b'.setOffset b.location offset, by rw [hemit, Option.map_some], hsize, ?_⟩
    rw [setOffset_code hcode b.location_eq, List.append_nil]
  cases i with
  | split | jump | loopEnd => exact hset rfl h
  | _ =>
    obtain ⟨b', hemit, hsize⟩ := exists_emit h
    exact ⟨b', hemit, hsize, emit_code hemit⟩

/-- **With enough room, instructions are written as their bytes**, one after another. -/
theorem exists_writeAll {b : CodeBuffer} {is : List Instr}
    (h : b.location + (is.flatMap Instr.encode).length ≤ b.capacity) :
    ∃ b', b.writeAll is = some b' ∧ b'.code.toList = b.code.toList ++ is.flatMap Instr.encode := by
  induction is generalizing b with
  | nil => exact ⟨b, rfl, (List.append_nil _).symm⟩
  | cons i is ih =>
    rw [List.flatMap_cons, List.length_append, ← Nat.add_assoc] at h
    obtain ⟨b₁, hwrite, hsize, hcode⟩ := exists_write (Nat.le_of_add_right_le h)
    have hroom : b₁.location + (is.flatMap Instr.encode).length ≤ b₁.capacity := by
      rw [capacity, hsize, ← capacity, b₁.location_eq, hcode, List.length_append, ← b.location_eq]
      exact h
    obtain ⟨b₂, hall, hcode₂⟩ := ih hroom
    refine ⟨b₂, ?_, ?_⟩
    · rw [writeAll, List.foldlM_cons, hwrite]
      exact hall
    · rw [hcode₂, hcode, List.flatMap_cons, List.append_assoc]

end CodeBuffer

/-! ### Reading -/

theorem Instr.encode_ne_nil (i : Instr) : i.encode ≠ [] := by
  cases i with
  | byte b =>
    rw [encode]
    split <;> exact List.cons_ne_nil _ _
  | _ => exact List.cons_ne_nil _ _

/-- **Instructions are read where they have been written**, and as they were. -/
theorem locate_sequence {is : List Instr} (h : ∀ i ∈ is, i.Encodable) (addr : Nat) :
    locate addr (is.flatMap Instr.encode) = .ok (Located.sequence addr is) := by
  induction is generalizing addr with
  | nil => rw [List.flatMap_nil, locate, Located.sequence]
  | cons i is ih =>
    have hi := Instr.decode?_encode (h i List.mem_cons_self) (is.flatMap Instr.encode)
    have hrest := ih (fun j hj => h j (List.mem_cons_of_mem _ hj)) (addr + i.encode.length)
    obtain ⟨b, tail, hbytes⟩ := List.exists_cons_of_ne_nil i.encode_ne_nil
    have hdrop : (tail ++ is.flatMap Instr.encode).drop (i.encode.length - 1) =
        is.flatMap Instr.encode := by
      rw [hbytes, List.length_cons, Nat.add_sub_cancel]
      exact List.drop_left
    rw [List.flatMap_cons]
    rw [hbytes, List.cons_append] at hi ⊢
    rw [locate, hi]
    dsimp only
    rw [← hbytes, hdrop, hrest, Located.sequence]

namespace Instr

/-- No other instructions have the same bytes. -/
theorem sequence_injective {is js : List Instr} (hi : ∀ i ∈ is, i.Encodable)
    (hj : ∀ j ∈ js, j.Encodable) (h : is.flatMap encode = js.flatMap encode) : is = js := by
  have hread := locate_sequence hi 0
  rw [h, locate_sequence hj 0] at hread
  rw [← Located.map_instr_sequence 0 is, ← Except.ok.inj hread, Located.map_instr_sequence]

/-- **Writing and reading agree** over any sequence of instructions, with any operands that their
bytes can hold.  Written one after another into a buffer with room for them, they are there as
their bytes; these are read as the same instructions, each at the address where the bytes of those
before it end; and each is read as it was, with its size, whatever follows it. -/
theorem read_sequence {is : List Instr} (h : ∀ i ∈ is, i.Encodable) :
    (∀ buffer : List UInt8,
      (is.flatMap encode).length ≤ (CodeBuffer.ofRoom buffer).capacity →
        ∃ b, (CodeBuffer.ofRoom buffer).writeAll is = some b ∧
          b.code.toList = is.flatMap encode) ∧
      locate 0 (is.flatMap encode) = .ok (Located.sequence 0 is) ∧
      ∀ i ∈ is, ∀ rest, decode? (i.encode ++ rest) = some (i, i.encode.length) := by
  refine ⟨fun buffer hroom => ?_, locate_sequence h 0, fun i hi => decode?_encode (h i hi)⟩
  exact CodeBuffer.exists_writeAll (b := .ofRoom buffer)
    (Nat.le_trans (Nat.le_of_eq (Nat.zero_add _)) hroom)

/-- Instructions whose bytes hold the escape byte, in its own right, as an index, in an offset and
in ranges. -/
theorem read_sequence_escapes :
    let is : List Instr :=
      [byte 0xAA, captureStart 0xAA, jump (-0x5556), ranges true [(0xAA, 0xAA), (0x00, 0x0B)],
        byte 0x00, accept]
    is.flatMap encode =
        [0xAA, 0xAA, 0xAA, 0x0A, 0xAA, 0xAA, 0x02, 0xAA, 0xAA, 0xAA, 0x05, 1, 2, 0xAA, 0xAA, 0x00,
          0x0B, 0x00, 0xAA, 0x00] ∧
      locate 0 (is.flatMap encode) =
        .ok [⟨0, byte 0xAA, 2⟩, ⟨2, captureStart 0xAA, 3⟩, ⟨5, jump (-0x5556), 4⟩,
          ⟨9, ranges true [(0xAA, 0xAA), (0x00, 0x0B)], 8⟩, ⟨17, byte 0x00, 1⟩,
          ⟨18, accept, 2⟩] := by
  intro is
  have h : ∀ i ∈ is, i.Encodable := by simp [is, Encodable]
  exact ⟨by decide, (read_sequence h).2.1⟩

end Instr

end BoundedRegex
