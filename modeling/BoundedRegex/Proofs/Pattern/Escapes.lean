import BoundedRegex.Pattern.Token

/-!
# Escapes

What may follow a backslash, and what it then stands for: a letter that names a class or a control
character, an `x` and two hexadecimal digits, or a byte that has a meaning of its own elsewhere.
`TokenKind.escape?` reads just these (`escape?_eq_some_iff`), whatever comes behind them.
-/

namespace BoundedRegex

/-- Whether a byte has a meaning of its own in a pattern. -/
def IsSpecial (b : UInt8) : Prop :=
  Char.ofUInt8 b = '\\' ∨ Char.ofUInt8 b ∈ metacharacters

instance (b : UInt8) : Decidable (IsSpecial b) :=
  inferInstanceAs (Decidable (_ ∨ _))

/-- The letters that name a class, the class, and whether the others are meant. -/
def classLetters : List (Char × NamedClass × Bool) :=
  [('d', .digit, false), ('D', .digit, true), ('w', .alphanumeric, false),
    ('W', .alphanumeric, true), ('l', .lowercase, false), ('a', .letter, false),
    ('s', .whitespace, false), ('S', .whitespace, true), ('N', .lineBreak, false),
    ('i', .identifierStart, false), ('c', .identifierPart, false)]

/-- The letters that name a control character. -/
def controlLetters : List (Char × UInt8) :=
  [('f', 0x0c), ('r', 0x0d), ('n', 0x0a), ('t', 0x09)]

/-- The text of an escape, without its backslash, and what it stands for. -/
inductive Escape : List UInt8 → SetItem → Prop where
  | named {b : UInt8} {c : NamedClass} {negated : Bool}
      (h : (Char.ofUInt8 b, c, negated) ∈ classLetters) : Escape [b] (.named c negated)
  | control {b c : UInt8} (h : (Char.ofUInt8 b, c) ∈ controlLetters) : Escape [b] (.byte c)
  | hex {hi lo : UInt8} {high low : Nat} (hhi : Text.hexValue? (Char.ofUInt8 hi) = some high)
      (hlo : Text.hexValue? (Char.ofUInt8 lo) = some low) :
      Escape ['x'.toUInt8, hi, lo] (.byte (UInt8.ofNat (16 * high + low)))
  | special {b : UInt8} (h : IsSpecial b) : Escape [b] (.byte b)

/-- The text of an item of a set, and what it stands for. -/
inductive ItemText : List UInt8 → SetItem → Prop where
  | raw {b : UInt8} (h : b ≠ '\\'.toUInt8) : ItemText [b] (.byte b)
  | escape {w : List UInt8} {item : SetItem} (h : Escape w item) :
      ItemText ('\\'.toUInt8 :: w) item

namespace TokenKind

variable {b : UInt8} {w text rest : List UInt8} {item : SetItem} {n : Nat}

/-- A special byte is what it stands for behind a backslash. -/
theorem escape?_special (h : IsSpecial b) (rest : List UInt8) :
    escape? (b :: rest) = some (.byte b, 1) := by
  rw [IsSpecial] at h
  simp only [escape?]
  generalize Char.ofUInt8 b = c at h ⊢
  -- The escapes with a meaning of their own are letters, and no letter is special.
  split
  case h_17 => rw [if_pos h]
  all_goals exact absurd h (by decide)

theorem escape?_of_escape (h : Escape w item) (rest : List UInt8) :
    escape? (w ++ rest) = some (item, w.length) := by
  cases h with
  | @named b c negated h =>
    simp only [List.singleton_append, escape?]
    generalize Char.ofUInt8 b = letter at h ⊢
    simp only [classLetters, List.mem_cons, Prod.mk.injEq, List.not_mem_nil, or_false] at h
    rcases h with h | h | h | h | h | h | h | h | h | h | h
    all_goals obtain ⟨rfl, rfl, rfl⟩ := h; rfl
  | @control b c h =>
    simp only [List.singleton_append, escape?]
    generalize Char.ofUInt8 b = letter at h ⊢
    simp only [controlLetters, List.mem_cons, Prod.mk.injEq, List.not_mem_nil, or_false] at h
    rcases h with h | h | h | h
    all_goals obtain ⟨rfl, rfl⟩ := h; rfl
  | hex hhi hlo =>
    have hletter : Char.ofUInt8 'x'.toUInt8 = 'x' := by decide
    simp only [List.cons_append, escape?, hletter, hhi, hlo]
    rfl
  | special h => exact escape?_special h rest

theorem exists_escape (h : escape? text = some (item, n)) :
    ∃ w rest, text = w ++ rest ∧ Escape w item ∧ n = w.length := by
  cases text with
  | nil => cases h
  | cons b rest =>
    simp only [escape?] at h
    generalize hletter : Char.ofUInt8 b = letter at h
    have hnamed {c : NamedClass} {negated : Bool} (hmem : (letter, c, negated) ∈ classLetters)
        (h : some (SetItem.named c negated, 1) = some (item, n)) :
        ∃ w rest', b :: rest = w ++ rest' ∧ Escape w item ∧ n = w.length := by
      cases h
      exact ⟨[b], rest, rfl, .named (hletter ▸ hmem), rfl⟩
    have hcontrol {c : UInt8} (hmem : (letter, c) ∈ controlLetters)
        (h : some (SetItem.byte c, 1) = some (item, n)) :
        ∃ w rest', b :: rest = w ++ rest' ∧ Escape w item ∧ n = w.length := by
      cases h
      exact ⟨[b], rest, rfl, .control (hletter ▸ hmem), rfl⟩
    split at h
    case h_12 | h_13 | h_14 | h_15 => exact hcontrol (by decide) h
    case h_16 =>
      obtain rfl : b = 'x'.toUInt8 := by
        rw [← UInt8.toNat_inj]
        exact congrArg Char.toNat hletter
      split at h
      · next hi lo rest =>
        obtain ⟨high, hhi, h⟩ := Option.bind_eq_some_iff.1 h
        obtain ⟨low, hlo, h⟩ := Option.bind_eq_some_iff.1 h
        cases h
        exact ⟨_, rest, rfl, .hex hhi hlo, rfl⟩
      · cases h
    case h_17 =>
      split at h
      · next hspecial =>
        cases h
        exact ⟨[b], rest, rfl, .special (by rwa [IsSpecial, hletter]), rfl⟩
      · cases h
    all_goals exact hnamed (by decide) h

/-- **Just the escapes are read.** -/
theorem escape?_eq_some_iff :
    escape? text = some (item, n) ↔
      ∃ w rest, text = w ++ rest ∧ Escape w item ∧ n = w.length := by
  refine ⟨exists_escape, ?_⟩
  rintro ⟨w, rest, rfl, h, rfl⟩
  exact escape?_of_escape h rest

/-- Nothing is read where no escape stands. -/
theorem escape?_eq_none_iff :
    escape? text = none ↔ ∀ w rest item, text = w ++ rest → ¬Escape w item := by
  rw [Option.eq_none_iff_forall_ne_some]
  constructor
  · rintro hnone w rest item rfl h
    exact hnone _ (escape?_of_escape h rest)
  · rintro hnone ⟨item, n⟩ h
    obtain ⟨w, rest, htext, hescape, -⟩ := exists_escape h
    exact hnone w rest item htext hescape

/-- An item is read, and its first byte is not counted. -/
theorem item?_of_itemText (h : ItemText (b :: w) item) (rest : List UInt8) :
    item? b (w ++ rest) = some (item, w.length) := by
  cases h with
  | raw h => exact if_neg h
  | escape h =>
    rw [item?, if_pos rfl]
    exact escape?_of_escape h rest

theorem exists_itemText (h : item? b text = some (item, n)) :
    ∃ w rest, text = w ++ rest ∧ ItemText (b :: w) item ∧ n = w.length := by
  unfold item? at h
  split at h
  · next hb =>
    subst hb
    obtain ⟨w, rest, htext, hescape, hn⟩ := exists_escape h
    exact ⟨w, rest, htext, .escape hescape, hn⟩
  · next hb =>
    cases h
    exact ⟨[], text, rfl, .raw hb, rfl⟩

/-- Only a backslash may be no item, for want of an escape. -/
theorem item?_eq_none_iff :
    item? b text = none ↔
      b = '\\'.toUInt8 ∧ ∀ w rest item, text = w ++ rest → ¬Escape w item := by
  unfold item?
  split
  · next hb => rw [escape?_eq_none_iff, and_iff_right hb]
  · next hb => exact iff_of_false (Option.some_ne_none _) fun h => hb h.1

end TokenKind

end BoundedRegex
