import BoundedRegex.Code.Instr

/-!
# Reading what has been written

Decoding an instruction that has been encoded gives it back with its size, whatever follows it
(`Instr.decode?_encode`); and what can be decoded, however it has come to be written, is decoded
alike whatever follows it (`Instr.decode?_append`).
-/

namespace BoundedRegex

namespace Instr

/-- An instruction that its bytes can hold: the count of ranges is one byte. -/
def Encodable : Instr → Prop
  | ranges _ list => list.length < 256
  | _ => True

/-! ### Operands -/

theorem offsetBytes_eq (offset : Int16) : ∃ lo hi, offsetBytes offset = [lo, hi] ∧
    readOffset lo hi = offset := by
  refine ⟨_, _, rfl, ?_⟩
  have hdecode : LittleEndian.decode (offsetBytes offset) = offset.toUInt16.toNat := by
    rw [offsetBytes, LittleEndian.decode_encode]
    exact Nat.mod_eq_of_lt offset.toUInt16.toNat_lt
  show (UInt16.ofNat (LittleEndian.decode (offsetBytes offset))).toInt16 = offset
  rw [hdecode, UInt16.ofNat_toNat]
  rfl

theorem lengthBytes_eq (n : UInt16) : ∃ lo hi, LittleEndian.encode 2 n.toNat = [lo, hi] ∧
    UInt16.ofNat (LittleEndian.decode [lo, hi]) = n := by
  refine ⟨_, _, rfl, ?_⟩
  have hmod : n.toNat % Nat.pow 256 2 = n.toNat := Nat.mod_eq_of_lt n.toNat_lt
  show UInt16.ofNat (LittleEndian.decode (LittleEndian.encode 2 n.toNat)) = n
  rw [LittleEndian.decode_encode, hmod, UInt16.ofNat_toNat]

theorem negated_bit (negated : Bool) : decide (negated.toUInt8 &&& 1 ≠ 0) = negated := by
  cases negated <;> rfl

theorem flags_greedy (l : Loop) : decide (l.flags &&& 1 ≠ 0) = l.greedy := by
  unfold Loop.flags
  cases l.greedy <;> cases l.singleByte <;> cases l.keepsFrames <;> rfl

theorem flags_singleByte (l : Loop) : decide (l.flags &&& 2 ≠ 0) = l.singleByte := by
  unfold Loop.flags
  cases l.greedy <;> cases l.singleByte <;> cases l.keepsFrames <;> rfl

theorem flags_keepsFrames (l : Loop) : decide (l.flags &&& 4 ≠ 0) = l.keepsFrames := by
  unfold Loop.flags
  cases l.greedy <;> cases l.singleByte <;> cases l.keepsFrames <;> rfl

theorem length_flatMap_pair (list : List (UInt8 × UInt8)) :
    (list.flatMap fun (lo, hi) => [lo, hi]).length = 2 * list.length := by
  induction list with
  | nil => rfl
  | cons run rest ih =>
    rw [List.flatMap_cons, List.length_append, ih]
    simp only [List.length_cons, List.length_nil]
    omega

theorem pairs_flatMap (list : List (UInt8 × UInt8)) :
    pairs (list.flatMap fun (lo, hi) => [lo, hi]) = list := by
  induction list with
  | nil => rfl
  | cons run rest ih => exact congrArg (run :: ·) ih

/-! ### Instructions -/

theorem length_encode_byte_le (b : UInt8) : (byte b).encode.length ≤ 2 := by
  rw [encode]
  split <;> simp only [List.length_cons, List.length_nil] <;> omega

theorem length_encode_bitmap (negated : Bool) (bits : BitVec 256) :
    (bitmap negated bits).encode.length = 35 := by
  simp only [encode, List.length_cons, LittleEndian.length_encode]

theorem length_encode_ranges (negated : Bool) (list : List (UInt8 × UInt8)) :
    (ranges negated list).encode.length = 4 + 2 * list.length := by
  simp only [encode, List.length_cons, length_flatMap_pair]
  omega

theorem decode?_escape (rest : List UInt8) : decode? (escapeByte :: rest) = decodeOpcode? rest := by
  rw [decode?, if_pos rfl]

theorem decodeOpcode?_bitmap (flags : UInt8) (rest : List UInt8) :
    decodeOpcode? (0x04 :: flags :: rest) =
      if 32 ≤ rest.length then
        some (bitmap (flags &&& 1 ≠ 0) (BitVec.ofNat 256 (LittleEndian.decode (rest.take 32))), 35)
      else none :=
  rfl

theorem decodeOpcode?_ranges (flags n : UInt8) (rest : List UInt8) :
    decodeOpcode? (0x05 :: flags :: n :: rest) =
      if 2 * n.toNat ≤ rest.length then
        some (ranges (flags &&& 1 ≠ 0) (pairs (rest.take (2 * n.toNat))), 4 + 2 * n.toNat)
      else none :=
  rfl

/-- **An encoded instruction is decoded as it was**, whatever follows it. -/
theorem decode?_encode {i : Instr} (h : i.Encodable) (rest : List UInt8) :
    decode? (i.encode ++ rest) = some (i, i.encode.length) := by
  cases i with
  | accept | anyByte | inputStart | inputEnd => rfl
  | captureStart | captureEnd => rfl
  | byte b =>
    by_cases hb : b = escapeByte
    · rw [encode, if_pos hb, hb]
      rfl
    · rw [encode, if_neg hb]
      exact if_neg hb
  | split offset =>
    obtain ⟨lo, hi, hbytes, hread⟩ := offsetBytes_eq offset
    rw [encode, hbytes]
    show some (split (readOffset lo hi), 4) = _
    rw [hread]
    rfl
  | jump offset =>
    obtain ⟨lo, hi, hbytes, hread⟩ := offsetBytes_eq offset
    rw [encode, hbytes]
    show some (jump (readOffset lo hi), 4) = _
    rw [hread]
    rfl
  | loopEnd offset =>
    obtain ⟨lo, hi, hbytes, hread⟩ := offsetBytes_eq offset
    rw [encode, hbytes]
    show some (loopEnd (readOffset lo hi), 4) = _
    rw [hread]
    rfl
  | bitmap negated bits =>
    have hlen := LittleEndian.length_encode 32 bits.toNat
    have hbits : BitVec.ofNat 256 (LittleEndian.decode (LittleEndian.encode 32 bits.toNat)) =
        bits := by
      have hmod : bits.toNat % Nat.pow 256 32 = bits.toNat := Nat.mod_eq_of_lt bits.isLt
      rw [LittleEndian.decode_encode, hmod, BitVec.ofNat_toNat, BitVec.setWidth_eq]
    rw [encode, List.cons_append, decode?_escape, List.cons_append, List.cons_append,
      decodeOpcode?_bitmap, if_pos (by rw [List.length_append, hlen]; omega), List.take_left' hlen,
      hbits, negated_bit, ← encode, length_encode_bitmap]
  | ranges negated list =>
    have hcount : (UInt8.ofNat list.length).toNat = list.length := UInt8.toNat_ofNat_of_lt' h
    have hlen := length_flatMap_pair list
    rw [encode, List.cons_append, decode?_escape, List.cons_append, List.cons_append,
      List.cons_append, decodeOpcode?_ranges, hcount,
      if_pos (by rw [List.length_append, hlen]; omega), List.take_left' hlen, pairs_flatMap,
      negated_bit, ← encode, length_encode_ranges]
  | loop l =>
    obtain ⟨lo, hi, hbytes, hread⟩ := lengthBytes_eq l.bodyLength
    rw [encode, hbytes]
    show some (loop
      { min := l.min, max := l.max, greedy := decide (l.flags &&& 1 ≠ 0)
        singleByte := decide (l.flags &&& 2 ≠ 0), keepsFrames := decide (l.flags &&& 4 ≠ 0)
        bodyLength := UInt16.ofNat (LittleEndian.decode [lo, hi]) }, Loop.size) = _
    rw [flags_greedy, flags_singleByte, flags_keepsFrames, hread]
    rfl

/-- What has been read from a text is read from it with more text behind it. -/
theorem decode?_append {text : List UInt8} {i : Instr} {size : Nat}
    (h : decode? text = some (i, size)) (rest : List UInt8) :
    decode? (text ++ rest) = some (i, size) := by
  unfold decode? at h
  split at h
  · cases h
  · next b tail =>
    rw [List.cons_append, decode?]
    split at h
    · next hb =>
      rw [if_pos hb]
      unfold decodeOpcode? at h
      split at h
      -- The operands of a set are as many as they say; those of the others are matched.
      case h_6 flags tail =>
        split at h
        · next hlen =>
          rw [List.cons_append, List.cons_append, decodeOpcode?_bitmap,
            if_pos (by rw [List.length_append]; omega), List.take_append_of_le_length hlen]
          exact h
        · cases h
      case h_7 flags n tail =>
        split at h
        · next hlen =>
          rw [List.cons_append, List.cons_append, List.cons_append, decodeOpcode?_ranges,
            if_pos (by rw [List.length_append]; omega), List.take_append_of_le_length hlen]
          exact h
        · cases h
      all_goals first
        | exact h
        | cases h
    · next hb =>
      rw [if_neg hb]
      exact h

end Instr

/-! ### Offsets -/

theorem toInt_ofNat {n : Nat} (h : n ≤ maxCodeLength) : (Int16.ofNat n).toInt = n :=
  Int16.toInt_ofNat_of_lt (Nat.lt_succ_of_le h)

theorem toInt_neg_ofNat {n : Nat} (h : n ≤ maxCodeLength) : (-Int16.ofNat n).toInt = -n := by
  have hmod : (-(n : Int)).bmod (2 ^ 16) = -n := by
    simp only [maxCodeLength] at h
    rw [Int.bmod_eq_of_le] <;> omega
  rw [Int16.toInt_neg, toInt_ofNat h, hmod]

/-- Offsets within a code lead where they are meant to. -/
theorem offsetTarget_ofNat {addr n : Nat} (hn : n ≤ maxCodeLength) (haddr : addr ≤ maxCodeLength) :
    offsetTarget addr (Int16.ofNat n) = addr + n := by
  rw [offsetTarget, toInt_ofNat hn]
  simp only [maxCodeLength] at hn haddr
  omega

theorem offsetTarget_neg {addr n : Nat} (hn : n ≤ addr) (haddr : addr ≤ maxCodeLength) :
    offsetTarget addr (-Int16.ofNat n) = addr - n := by
  rw [offsetTarget, toInt_neg_ofNat (Nat.le_trans hn haddr)]
  simp only [maxCodeLength] at haddr
  omega

end BoundedRegex
