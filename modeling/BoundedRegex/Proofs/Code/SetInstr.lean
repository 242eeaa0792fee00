import Mathlib.Data.List.Nodup
import BoundedRegex.Proofs.ByteSet.Runs
import BoundedRegex.Proofs.Code.Encoding

/-!
# The instruction for a set

A set is written as the byte it contains, as its runs or as its bits.  Each of these accepts the bytes
of the set and no other (`ByteSet.accepts_toInstr`); the byte is written just if there is no other
(`ByteSet.toInstr_eq_byte_iff`), and the runs just if they take no more room than the bits
(`ByteSet.length_toInstr_le`).
-/

namespace BoundedRegex

theorem mem_allBytes (b : UInt8) : b ∈ allBytes := by
  refine List.mem_map.2 ⟨b.toNat, List.mem_range.2 b.toNat_lt, ?_⟩
  exact UInt8.ofNat_toNat

theorem nodup_allBytes : allBytes.Nodup := by
  refine List.Nodup.map_on (fun m hm n hn h => ?_) List.nodup_range
  rw [← UInt8.toNat_inj, UInt8.toNat_ofNat_of_lt' (List.mem_range.1 hm),
    UInt8.toNat_ofNat_of_lt' (List.mem_range.1 hn)] at h
  exact h

namespace ByteSet

variable {s : ByteSet} {b : UInt8}

theorem mem_members : b ∈ s.members ↔ s.contains b = true := by
  simp [members, mem_allBytes]

theorem single?_eq_some_iff_members : s.single? = some b ↔ s.members = [b] := by
  unfold single?
  split
  · next b' hm => simp [hm]
  · next hne =>
    refine ⟨fun h => ?_, fun h => absurd h (hne b)⟩
    cases h

/-- The only member is the byte that alone is contained. -/
theorem single?_eq_some_iff : s.single? = some b ↔ ∀ c, s.contains c = true ↔ c = b := by
  rw [single?_eq_some_iff_members]
  constructor
  · intro h c
    rw [← mem_members, h, List.mem_singleton]
  · intro h
    have hnodup : s.members.Nodup := nodup_allBytes.filter _
    refine List.perm_singleton.1
      ((List.perm_ext_iff_of_nodup hnodup (List.nodup_singleton b)).2 fun c => ?_)
    rw [mem_members, h, List.mem_singleton]

/-! ### The instruction -/

theorem toInstr_of_single? (h : s.single? = some b) : s.toInstr = .byte b := by
  rw [toInstr, h]

theorem toInstr_of_none (h : s.single? = none) :
    s.toInstr = if s.runs.length < 16 then .ranges s.inverted s.runs
      else .bitmap s.inverted s.bits := by
  rw [toInstr, h]

/-- **The instruction for a set accepts the bytes of the set.** -/
theorem accepts_toInstr (s : ByteSet) (b : UInt8) : s.toInstr.accepts b = s.contains b := by
  cases hs : s.single? with
  | some c =>
    rw [toInstr_of_single? hs, Bool.eq_iff_iff, single?_eq_some_iff.1 hs]
    show decide (c = b) = true ↔ b = c
    rw [decide_eq_true_eq]
    exact eq_comm
  | none =>
    rw [toInstr_of_none hs]
    split
    · show (inRanges s.runs b ^^ s.inverted) = (s.bit b ^^ s.inverted)
      rw [inRanges_runs]
    · rfl

/-- A set is written as a byte just if that byte alone is contained. -/
theorem toInstr_eq_byte_iff : s.toInstr = .byte b ↔ ∀ c, s.contains c = true ↔ c = b := by
  rw [← single?_eq_some_iff]
  refine ⟨fun h => ?_, toInstr_of_single?⟩
  cases hs : s.single? with
  | some c =>
    rw [toInstr_of_single? hs, Instr.byte.injEq] at h
    rw [h]
  | none =>
    rw [toInstr_of_none hs] at h
    split at h <;> cases h

theorem isSingleByte_toInstr (s : ByteSet) : s.toInstr.isSingleByte = true := by
  cases hs : s.single? with
  | some c => rw [toInstr_of_single? hs]; rfl
  | none =>
    rw [toInstr_of_none hs]
    split <;> rfl

/-- A set takes no more room than its runs or its bits would. -/
theorem length_toInstr_le (s : ByteSet) :
    s.toInstr.encode.length ≤ (Instr.ranges s.inverted s.runs).encode.length ∧
      s.toInstr.encode.length ≤ (Instr.bitmap s.inverted s.bits).encode.length := by
  rw [Instr.length_encode_ranges, Instr.length_encode_bitmap]
  cases hs : s.single? with
  | some c =>
    rw [toInstr_of_single? hs]
    have hbyte := Instr.length_encode_byte_le c
    omega
  | none =>
    rw [toInstr_of_none hs]
    split
    · rw [Instr.length_encode_ranges]
      omega
    · rw [Instr.length_encode_bitmap]
      omega

end ByteSet

end BoundedRegex
