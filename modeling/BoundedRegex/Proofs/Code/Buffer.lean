import BoundedRegex.Code.Buffer
import BoundedRegex.Proofs.Code.Generation

/-!
# What the operations on a code buffer write

Each operation is described by the code before and after it, as a list of bytes.  Alternatives that
others follow are `pendingCode`: each is a split, its code and a jump to a place not yet known,
linked to the jump before it.  `patchJumps` sets all of these jumps (`CodeBuffer.patchJumps_code`).
-/

namespace BoundedRegex

namespace CodeBuffer

variable {b b' : CodeBuffer} {i : Instr}

theorem location_eq (b : CodeBuffer) : b.location = b.code.toList.length :=
  Array.length_toList.symm

theorem emit_code (h : b.emit i = some b') : b'.code.toList = b.code.toList ++ i.encode := by
  unfold emit at h
  dsimp only at h
  split at h
  · cases h
    simp
  · cases h

theorem insert_code {pre post : List UInt8} {location : Nat} (hb : b.code.toList = pre ++ post)
    (hlocation : location = pre.length) (h : b.insert location i = some b') :
    b'.code.toList = pre ++ (i.encode ++ post) := by
  unfold insert at h
  dsimp only at h
  split at h
  · cases h
    have hlen : b.code.size = pre.length + post.length := by
      rw [← Array.length_toList, hb, List.length_append]
    simp only [inserted, Array.toList_append, Array.toList_shrink, Array.toList_extract, hb,
      List.append_assoc]
    rw [List.take_left' hlocation.symm, List.extract_eq_take_drop, hb,
      List.drop_left' hlocation.symm, List.take_of_length_le (by omega)]
  · cases h

/-! ### Offsets -/

/-- Setting the offset of an instruction, whatever its opcode. -/
theorem setOffset_code {pre post : List UInt8} {location : Nat} {opcode : UInt8} {o : Int16}
    (hb : b.code.toList = pre ++ (escapeByte :: opcode :: Instr.offsetBytes o ++ post))
    (hlocation : location = pre.length) (o' : Int16) :
    (b.setOffset location o').code.toList =
      pre ++ (escapeByte :: opcode :: Instr.offsetBytes o' ++ post) := by
  obtain ⟨lo, hi, hbytes, -⟩ := Instr.offsetBytes_eq o
  obtain ⟨lo', hi', hbytes', -⟩ := Instr.offsetBytes_eq o'
  rw [hbytes] at hb
  subst hlocation
  simp only [setOffset, hbytes', Array.toList_setIfInBounds, hb]
  rw [List.set_append_right _ _ (Nat.le_add_right ..),
    List.set_append_right _ _ (Nat.le_add_right ..), Nat.add_sub_cancel_left,
    Nat.add_sub_cancel_left]
  rfl

theorem offsetAt_eq {pre post : List UInt8} {location : Nat} {opcode : UInt8} {o : Int16}
    (hb : b.code.toList = pre ++ (escapeByte :: opcode :: Instr.offsetBytes o ++ post))
    (hlocation : location = pre.length) : b.offsetAt location = o := by
  obtain ⟨lo, hi, hbytes, hread⟩ := Instr.offsetBytes_eq o
  rw [hbytes] at hb
  subst hlocation
  have hget (j : Nat) : b.code.getD (pre.length + j) 0 =
      ((escapeByte :: opcode :: [lo, hi] ++ post)[j]?).getD 0 := by
    rw [Array.getD_eq_getD_getElem?, ← Array.getElem?_toList, hb,
      List.getElem?_append_right (Nat.le_add_right ..), Nat.add_sub_cancel_left]
  rw [offsetAt, hget, hget]
  exact hread

/-! ### Jumps -/

theorem size_setOffset (b : CodeBuffer) (location : Nat) (o : Int16) :
    (b.setOffset location o).code.size = b.code.size := by
  simp [setOffset]

/-- Patching starts with the last jump, and leaves the code with the last alternative closed. -/
theorem setOffset_pendingCode {pre rest : List UInt8} {e : Expr} {earlier : List Expr}
    {last target : Nat}
    (hb : b.code.toList = pre ++ (Expr.pendingCode (e :: earlier) ++ rest))
    (hlast : last + 4 = pre.length + (Expr.pendingCode (e :: earlier)).length)
    (htarget : target = b.code.size) :
    b.offsetAt last = (if earlier.isEmpty then 0 else .ofNat (e.code.length + 8)) ∧
      (b.setOffset last (Int16.ofNat (target - last))).code.toList =
        pre ++ (Expr.pendingCode earlier ++
          (alternativeCode e.code (.ofNat (rest.length + 4)) ++ rest)) := by
  have hsize : b.code.size = last + 4 + rest.length := by
    rw [← Array.length_toList, hb, List.length_append, List.length_append]
    omega
  rw [Expr.length_pendingCode_cons] at hlast
  simp only [Expr.pendingCode, alternativeCode, List.append_assoc] at hb
  generalize (if earlier.isEmpty then (0 : Int16) else .ofNat (e.code.length + 8)) = link at hb ⊢
  generalize hsplit : Instr.split (.ofNat (e.code.length + 8)) = split at hb
  have hfour : split.encode.length = 4 := by rw [← hsplit]; rfl
  have hb' : b.code.toList = (pre ++ Expr.pendingCode earlier ++ split.encode ++ e.code) ++
      (escapeByte :: 0x02 :: Instr.offsetBytes link ++ rest) := by
    rw [hb]
    simp only [List.append_assoc]
    rfl
  have hprefix : last = (pre ++ Expr.pendingCode earlier ++ split.encode ++ e.code).length := by
    simp only [List.length_append]
    omega
  refine ⟨offsetAt_eq hb' hprefix, ?_⟩
  rw [setOffset_code hb' hprefix, show target - last = rest.length + 4 by omega, alternativeCode,
    hsplit]
  simp only [List.append_assoc]
  rfl

/-- **Patching sets every jump of the chain**: the one at the end of each pending alternative goes
to where the code ends. -/
theorem patchJumps_code {pre rest : List UInt8} {e : Expr} {earlier : List Expr} {last target : Nat}
    (hb : b.code.toList = pre ++ (Expr.pendingCode (e :: earlier) ++ rest))
    (hlast : last + 4 = pre.length + (Expr.pendingCode (e :: earlier)).length)
    (htarget : target = b.code.size) :
    (b.patchJumps last target).code.toList = pre ++ Expr.closedCode (e :: earlier) rest := by
  have hle : last ≤ maxCodeLength := by
    have hsize := congrArg List.length hb
    rw [Array.length_toList, List.length_append, List.length_append] at hsize
    have := b.code_le
    omega
  induction earlier generalizing b e rest last with
  | nil =>
    obtain ⟨hlink, hcode⟩ := setOffset_pendingCode hb hlast htarget
    rw [List.isEmpty_nil, if_pos rfl] at hlink
    rw [patchJumps, hlink, if_neg (fun h => absurd h.1 (by decide)), hcode]
    rfl
  | cons f earlier ih =>
    obtain ⟨hlink, hcode⟩ := setOffset_pendingCode hb hlast htarget
    rw [Expr.length_pendingCode_cons, Expr.length_pendingCode_cons] at hlast
    rw [List.isEmpty_cons, if_neg Bool.false_ne_true] at hlink
    have hint : (Int16.ofNat (e.code.length + 8)).toInt = (e.code.length + 8 : Nat) :=
      toInt_ofNat (by omega)
    rw [patchJumps, hlink, hint, if_pos ⟨by omega, by omega⟩]
    refine ih hcode ?_ (by rw [size_setOffset]; exact htarget) (by omega)
    rw [Expr.length_pendingCode_cons]
    omega

/-- A jump whose target is not known holds the distance to the one before it. -/
theorem emitJump_code {previous : Option Nat} (h : b.emitJump previous = some b') :
    b'.code.toList = b.code.toList ++
      (Instr.jump (previous.elim 0 fun p => .ofNat (b.location - p))).encode := by
  cases previous <;> exact emit_code h

/-- An alternative that ends gets a split in front of it and a jump behind it, which is linked to
the jump of the alternative before it, if there is one. -/
theorem alternative_code {pre : List UInt8} {e : Expr} {earlier : List Expr} {start : Nat}
    {b₁ b₂ : CodeBuffer} (hb : b.code.toList = pre ++ (Expr.pendingCode earlier ++ e.code))
    (hstart : start = pre.length + (Expr.pendingCode earlier).length)
    (hinsert : b.insert start (.split 0) = some b₁)
    (hjump : b₁.emitJump (if earlier.isEmpty then none else some (start - 4)) = some b₂) :
    b₁.location = start + (e.code.length + 4) ∧ b₂.location = start + (e.code.length + 8) ∧
      (b₂.setOffset start (.ofNat (b₂.location - start))).code.toList =
        pre ++ Expr.pendingCode (e :: earlier) := by
  rw [← List.append_assoc] at hb
  rw [← List.length_append] at hstart
  have hcode₁ := insert_code hb hstart hinsert
  have hlocation₁ : b₁.location = start + (e.code.length + 4) := by
    rw [b₁.location_eq, hcode₁, List.length_append, ← hstart, List.length_append]
    show start + (4 + e.code.length) = _
    omega
  have hlink : (if earlier.isEmpty then none else some (start - 4)).elim 0
      (fun p => Int16.ofNat (b₁.location - p)) =
        if earlier.isEmpty then 0 else .ofNat (e.code.length + 8) := by
    cases earlier with
    | nil => rfl
    | cons f earlier =>
      rw [List.length_append, Expr.length_pendingCode_cons] at hstart
      show Int16.ofNat (b₁.location - (start - 4)) = Int16.ofNat (e.code.length + 8)
      rw [hlocation₁, show start + (e.code.length + 4) - (start - 4) = e.code.length + 8 by omega]
  have hcode₂ := emitJump_code hjump
  rw [hlink] at hcode₂
  generalize hlink' : (if earlier.isEmpty then (0 : Int16) else .ofNat (e.code.length + 8)) = link
    at hcode₂
  have hlocation₂ : b₂.location = start + (e.code.length + 8) := by
    rw [b₂.location_eq, hcode₂, List.length_append, ← b₁.location_eq, hlocation₁]
    rfl
  refine ⟨hlocation₁, hlocation₂, ?_⟩
  have hsplit : b₂.code.toList = (pre ++ Expr.pendingCode earlier) ++
      (escapeByte :: 0x01 :: Instr.offsetBytes 0 ++ (e.code ++ (Instr.jump link).encode)) := by
    rw [hcode₂, hcode₁]
    simp only [List.append_assoc]
    rfl
  rw [setOffset_code hsplit hstart, hlocation₂, Nat.add_sub_cancel_left, Expr.pendingCode, hlink',
    alternativeCode, List.append_assoc, List.append_assoc]
  rfl

/-! ### Loops -/

/-- Turning the end of the code into the body of a loop writes the repetition of what it holds. -/
theorem makeLoop_code {pre : List UInt8} {e : Expr} {start : Nat} {q : Quantifier}
    (hb : b.code.toList = pre ++ e.code) (hstart : start = pre.length)
    (h : b.makeLoop start q e.isLeaf (e.keepsFrames q) = some b') :
    b'.code.toList = pre ++ (Expr.repetition e q).code := by
  have hbody : b.location - start = e.code.length := by
    rw [b.location_eq, hb, List.length_append]
    omega
  obtain ⟨b₁, hinsert, h⟩ := Option.bind_eq_some_iff.1 h
  have hcode := insert_code hb hstart hinsert
  rw [hbody] at hcode
  cases hleaf : e.isLeaf with
  | true =>
    rw [hleaf, if_pos rfl] at h
    cases h
    rw [hcode, Expr.code, Expr.toLoop]
    simp only [hleaf, if_true, List.append_nil]
  | false =>
    rw [hleaf, if_neg Bool.false_ne_true] at h
    have hlength : b₁.location - start = e.code.length + 7 := by
      rw [b₁.location_eq, hcode, List.length_append, List.length_append]
      show pre.length + (7 + e.code.length) - start = _
      omega
    rw [emit_code h, hcode, hlength, Expr.code, Expr.toLoop]
    simp only [hleaf, Bool.false_eq_true, if_false, List.append_assoc]

/-! ### Room

With enough room each operation succeeds, and none changes the size of the buffer.
-/

theorem exists_emit (h : b.location + i.encode.length ≤ b.capacity) :
    ∃ b', b.emit i = some b' ∧ b'.size = b.size := by
  unfold emit
  exact ⟨_, dif_pos h, rfl⟩

theorem exists_insert (location : Nat) (h : b.location + i.encode.length ≤ b.capacity) :
    ∃ b', b.insert location i = some b' ∧ b'.size = b.size ∧
      b'.location = b.location + i.encode.length := by
  unfold insert
  exact ⟨_, dif_pos h, rfl, size_inserted ..⟩

theorem exists_emitJump (previous : Option Nat) (h : b.location + 4 ≤ b.capacity) :
    ∃ b', b.emitJump previous = some b' ∧ b'.size = b.size :=
  exists_emit h

theorem exists_makeLoop (start : Nat) (q : Quantifier) {singleByte : Bool} (keepsFrames : Bool)
    (h : b.location + (7 + if singleByte then 0 else 4) ≤ b.capacity) :
    ∃ b', b.makeLoop start q singleByte keepsFrames = some b' ∧ b'.size = b.size := by
  have hloop (l : Loop) : b.location + (Instr.loop l).encode.length ≤ b.capacity :=
    Nat.le_trans (Nat.add_le_add_left (Nat.le_add_right 7 _) _) h
  obtain ⟨b₁, hinsert, hsize, hlocation⟩ := exists_insert start (hloop
    { min := q.min, max := q.max, greedy := q.greedy, singleByte, keepsFrames
      bodyLength := .ofNat (if singleByte then b.location - start else b.location - start + 4) })
  cases singleByte with
  | true => exact ⟨b₁, Option.bind_eq_some_iff.2 ⟨b₁, hinsert, rfl⟩, hsize⟩
  | false =>
    have hroom : b₁.location + 4 ≤ b₁.capacity := by
      rw [hlocation, capacity, hsize, Nat.add_assoc]
      exact h
    obtain ⟨b₂, hemit, hsize'⟩ :=
      exists_emit (i := .loopEnd (-.ofNat (b₁.location - start))) hroom
    exact ⟨b₂, Option.bind_eq_some_iff.2 ⟨b₁, hinsert, hemit⟩, hsize'.trans hsize⟩

theorem size_patchJumps (b : CodeBuffer) (last target : Nat) :
    (b.patchJumps last target).size = b.size := by
  induction last using Nat.strongRecOn generalizing b with
  | ind last ih =>
    rw [patchJumps]
    split
    · rw [ih _ (by omega)]
      rfl
    · rfl

end CodeBuffer

end BoundedRegex
