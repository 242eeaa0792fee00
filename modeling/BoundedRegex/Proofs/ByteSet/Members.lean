import BoundedRegex.ByteSet.Named

/-!
# What is added to a set of bytes

The bits of a set after a byte, a range or a class has been added: those that were set before, and
those of what has been added.  The polarity stays as it is, so a set is known from it and from what
the set contains (`ByteSet.eq_of_contains`).
-/

namespace BoundedRegex

/-- The bits of a span. -/
theorem getLsbD_bitSpan {first count : Nat} (h : first + count ≤ 256) (i : Nat) :
    (bitSpan first count).getLsbD i = decide (first ≤ i ∧ i < first + count) := by
  simp only [bitSpan, BitVec.getLsbD_shiftLeft, BitVec.getLsbD_ushiftRight,
    BitVec.getLsbD_allOnes]
  by_cases h₁ : first ≤ i <;> by_cases h₂ : i < first + count <;> simp [h₁, h₂] <;> omega

/-- Whether a byte belongs to a class. -/
def NamedClass.Has (c : NamedClass) (b : UInt8) : Prop :=
  ∃ r ∈ c.ranges, r.1.toUInt8 ≤ b ∧ b ≤ r.2.toUInt8

namespace ByteSet

variable {s t : ByteSet} {b lo hi : UInt8}

theorem bit_insertRange : (s.insertRange lo hi).bit b = true ↔ (lo ≤ b ∧ b ≤ hi) ∨ s.bit b = true := by
  have hlo := lo.toNat_lt
  have hhi := hi.toNat_lt
  rw [bit, insertRange, BitVec.getLsbD_or, getLsbD_bitSpan (by omega), Bool.or_eq_true, or_comm,
    decide_eq_true_eq, UInt8.le_iff_toNat_le, UInt8.le_iff_toNat_le]
  exact or_congr_left (by omega)

theorem bit_insert : (s.insert lo).bit b = true ↔ b = lo ∨ s.bit b = true := by
  rw [insert, bit_insertRange, UInt8.le_iff_toNat_le, UInt8.le_iff_toNat_le, ← UInt8.toNat_inj]
  exact or_congr_left (by omega)

/-- Where adding one thing adds its bytes, adding several adds the bytes of each. -/
theorem bit_foldl {α : Type} {add : ByteSet → α → ByteSet} {has : α → Prop}
    (h : ∀ s a, (add s a).bit b = true ↔ has a ∨ s.bit b = true) (list : List α) :
    (list.foldl add s).bit b = true ↔ (∃ a ∈ list, has a) ∨ s.bit b = true := by
  induction list generalizing s with
  | nil => simp
  | cons a list ih =>
    simp only [List.foldl_cons, ih, h, List.mem_cons, exists_eq_or_imp, ← or_assoc]
    rw [or_comm (a := has a)]

/-- The set of a class has its bytes. -/
theorem bit_toSet (c : NamedClass) : c.toSet.bit b = true ↔ c.Has b := by
  have hrange (s : ByteSet) (r : Char × Char) :
      (s.insertRange r.1.toUInt8 r.2.toUInt8).bit b = true ↔
        (r.1.toUInt8 ≤ b ∧ b ≤ r.2.toUInt8) ∨ s.bit b = true := bit_insertRange
  have hempty : empty.bit b = false := BitVec.getLsbD_zero
  refine (bit_foldl hrange c.ranges).trans ?_
  rw [hempty]
  exact or_iff_left Bool.false_ne_true

/-- A class adds its bytes, a negated one all the others. -/
theorem bit_insertClass {c : NamedClass} {negated : Bool} :
    (s.insertClass c negated).bit b = true ↔ (c.Has b ↔ negated = false) ∨ s.bit b = true := by
  have hb := b.toNat_lt
  rw [← bit_toSet, bit, insertClass, BitVec.getLsbD_or, Bool.or_eq_true, or_comm]
  refine or_congr_left ?_
  cases negated with
  | false => simp [bit]
  | true => simp [bit, hb]

/-- A set is known from its polarity and from what it contains. -/
theorem eq_of_contains (hinverted : s.inverted = t.inverted)
    (h : ∀ b, s.contains b = true ↔ t.contains b = true) : s = t := by
  have hbits : s.bits = t.bits := by
    refine BitVec.eq_of_getLsbD_eq fun i hi => ?_
    have hi : (UInt8.ofNat i).toNat = i := UInt8.toNat_ofNat_of_lt' hi
    have hcontains := Bool.eq_iff_iff.2 (h (.ofNat i))
    rw [contains, contains, hinverted, bit, bit, hi] at hcontains
    exact Bool.xor_left_inj.1 hcontains
  cases s
  cases t
  cases hinverted
  cases hbits
  rfl

end ByteSet

end BoundedRegex
