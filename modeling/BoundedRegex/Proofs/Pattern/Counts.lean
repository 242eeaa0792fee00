import Mathlib.Data.List.Basic
import Mathlib.Data.List.TakeDrop
import Mathlib.Data.List.TakeWhile
import BoundedRegex.Pattern.Token

/-!
# Counts in braces

`Counts body m n` says that the text between two braces stands for the bounds `m` and `n`: it is one
number, a number and a comma, or two numbers with a comma between them, and `Numeral` says what a
number is.

* `TokenKind.bounds?_eq_some_iff` — the bounds that are read are those that the text stands for.
* `Misbraced` — what can be wrong behind an opening brace, and where: no brace closes, there is white
  space before the one that does, or the text before it stands for no bounds.
* `TokenKind.braces_cases` — nothing else happens: bounds are read, or one of these is the case.
-/

namespace BoundedRegex

/-- Decimal digits, at least one, and the number they stand for.  Zeros in front do not change it. -/
structure Numeral (digits : List UInt8) (n : Nat) : Prop where
  ne_nil : digits ≠ []
  isDigit : ∀ b ∈ digits, '0'.toUInt8 ≤ b ∧ b ≤ '9'.toUInt8
  value : Nat.ofDigitChars 10 (digits.map Char.ofUInt8) 0 = n

/-- The text between braces, and the bounds it stands for; 255 is no bound. -/
inductive Counts : List UInt8 → Nat → Nat → Prop where
  | exactly {digits : List UInt8} {n : Nat} (h : Numeral digits n) (hpos : 1 ≤ n) (hle : n ≤ 254) :
      Counts digits n n
  | atLeast {digits : List UInt8} {m : Nat} (h : Numeral digits m) (hle : m ≤ 254) :
      Counts (digits ++ [','.toUInt8]) m 255
  | between {digits digits' : List UInt8} {m n : Nat} (h : Numeral digits m)
      (h' : Numeral digits' n) (hle : n ≤ 255) (horder : m < n ∨ 0 < m ∧ m = n ∧ n < 255) :
      Counts (digits ++ ','.toUInt8 :: digits') m n

/-- What braces refuse as white space: space, tab, line feed, form feed and carriage return. -/
def whiteSpace : List UInt8 :=
  [' ', '\t', '\n', '\x0c', '\r'].map Char.toUInt8

/-- What is wrong behind an opening brace, which is at offset 0. -/
inductive Misbraced : List UInt8 → SyntaxError → Prop where
  | unclosed {rest : List UInt8} (h : '\x7d'.toUInt8 ∉ rest) : Misbraced rest ⟨.invalidCount, 0⟩
  | blank {front back tail : List UInt8} {b : UInt8} (h : '\x7d'.toUInt8 ∉ front ++ b :: back)
      (hb : b ∈ whiteSpace) (hfront : ∀ c ∈ front, c ∉ whiteSpace) :
      Misbraced (front ++ b :: back ++ '\x7d'.toUInt8 :: tail) ⟨.whitespaceInBraces, front.length + 1⟩
  | malformed {body tail : List UInt8} (h : '\x7d'.toUInt8 ∉ body)
      (hblank : ∀ b ∈ body, b ∉ whiteSpace) (hcounts : ∀ m n, ¬Counts body m n) :
      Misbraced (body ++ '\x7d'.toUInt8 :: tail) ⟨.invalidCount, 0⟩

/-! ### White space -/

theorem TokenKind.isAsciiBlank_iff {b : UInt8} : isAsciiBlank b = true ↔ b ∈ whiteSpace := by
  have hbytes : whiteSpace = [0x20, 0x09, 0x0a, 0x0c, 0x0d] := rfl
  simp [hbytes, isAsciiBlank, or_assoc]

theorem TokenKind.isAsciiBlank_eq_false_iff {b : UInt8} :
    isAsciiBlank b = false ↔ b ∉ whiteSpace := by
  rw [← isAsciiBlank_iff, Bool.not_eq_true]

/-! ### The first of a kind -/

section

variable {c : UInt8} {before after : List UInt8}

theorem takeWhile_ne_append (h : c ∉ before) : (before ++ c :: after).takeWhile (· ≠ c) = before := by
  rw [List.takeWhile_append_of_pos, List.takeWhile_cons_of_neg (by simp), List.append_nil]
  exact fun b hb => decide_eq_true fun heq => h (heq ▸ hb)

theorem span_ne_append (h : c ∉ before) :
    (before ++ c :: after).span (· ≠ c) = (before, c :: after) := by
  have hdrop : (before ++ c :: after).dropWhile (· ≠ c) = c :: after := by
    rw [List.dropWhile_append_of_pos, List.dropWhile_cons_of_neg (by simp)]
    exact fun b hb => decide_eq_true fun heq => h (heq ▸ hb)
  rw [List.span_eq_takeWhile_dropWhile, takeWhile_ne_append h, hdrop]

theorem span_ne_self (h : c ∉ before) : before.span (· ≠ c) = (before, []) := by
  have hall : ∀ b ∈ before, decide (b ≠ c) = true :=
    fun b hb => decide_eq_true fun heq => h (heq ▸ hb)
  rw [List.span_eq_takeWhile_dropWhile, List.takeWhile_eq_self_iff.2 hall,
    List.dropWhile_eq_nil_iff.2 hall]

end

/-! ### Numbers -/

section

variable {digits : List UInt8} {n : Nat}

theorem Numeral.not_mem (h : Numeral digits n) {b : UInt8}
    (hb : ¬('0'.toUInt8 ≤ b ∧ b ≤ '9'.toUInt8)) : b ∉ digits :=
  fun hmem => hb (h.isDigit b hmem)

theorem Numeral.comma_not_mem (h : Numeral digits n) : ','.toUInt8 ∉ digits :=
  h.not_mem (by decide)

theorem Numeral.not_blank (h : Numeral digits n) : ∀ b ∈ digits, b ∉ whiteSpace := by
  have hdigits : ∀ b ∈ whiteSpace, ¬('0'.toUInt8 ≤ b ∧ b ≤ '9'.toUInt8) :=
    List.forall_iff_forall_mem.1 (by decide)
  exact fun b hb hblank => h.not_mem (hdigits b hblank) hb

end

section

variable {body : List UInt8} {m n : Nat}

/-- Bounds fit in a byte each, and the lower one is a count. -/
theorem Counts.le (h : Counts body m n) : m ≤ 254 ∧ n ≤ 255 := by
  cases h <;> omega

theorem Counts.inOrder (h : Counts body m n) : 0 < n ∧ m ≤ n := by
  cases h <;> omega

/-- There is no white space in bounds. -/
theorem Counts.not_blank (h : Counts body m n) : ∀ b ∈ body, b ∉ whiteSpace := by
  have hcomma : ','.toUInt8 ∉ whiteSpace := by decide
  cases h with
  | exactly h => exact h.not_blank
  | atLeast h => exact List.forall_mem_append.2 ⟨h.not_blank, List.forall_mem_singleton.2 hcomma⟩
  | between h h' =>
    exact List.forall_mem_append.2 ⟨h.not_blank, List.forall_mem_cons.2 ⟨hcomma, h'.not_blank⟩⟩

end

namespace TokenKind

theorem isDigit_ofUInt8 (b : UInt8) :
    (Char.ofUInt8 b).isDigit = true ↔ '0'.toUInt8 ≤ b ∧ b ≤ '9'.toUInt8 := by
  rw [Char.isDigit_iff_toNat, UInt8.le_iff_toNat_le, UInt8.le_iff_toNat_le]
  rfl

/-- The counts that are read are the numbers that a byte can hold. -/
theorem count?_eq_some_iff {digits : List UInt8} {n : UInt8} :
    count? digits = some n ↔ Numeral digits n.toNat := by
  have hvalue : digits.foldl (fun n b => 10 * n + (b.toNat - '0'.toNat)) 0 =
      Nat.ofDigitChars 10 (digits.map Char.ofUInt8) 0 := by
    rw [Nat.ofDigitChars, List.foldl_map]
    rfl
  have hdigits : digits.all (fun b => (Char.ofUInt8 b).isDigit) = true ↔
      ∀ b ∈ digits, '0'.toUInt8 ≤ b ∧ b ≤ '9'.toUInt8 := by
    simp only [List.all_eq_true, isDigit_ofUInt8]
  unfold count?
  rw [hvalue]
  constructor
  · intro h
    split at h
    · next hall =>
      dsimp only at h
      split at h
      · next hle =>
        cases h
        refine ⟨hall.1, hdigits.1 hall.2, ?_⟩
        rw [UInt8.toNat_ofNat_of_lt' (Nat.lt_succ_of_le hle)]
      · cases h
    · cases h
  · rintro ⟨hne, hall, hn⟩
    rw [if_pos ⟨hne, hdigits.2 hall⟩, hn]
    dsimp only
    rw [if_pos (Nat.le_of_lt_succ n.toNat_lt), UInt8.ofNat_toNat]

/-! ### Bounds -/

theorem bounds?_exactly {digits : List UInt8} (h : ','.toUInt8 ∉ digits) :
    bounds? digits =
      (count? digits).bind fun n => if 1 ≤ n ∧ n < unboundedCount then some (n, n) else none := by
  rw [bounds?, span_ne_self h]
  rfl

theorem bounds?_atLeast {digits : List UInt8} (h : ','.toUInt8 ∉ digits) :
    bounds? (digits ++ [','.toUInt8]) =
      (count? digits).bind fun m => if m = unboundedCount then none else some (m, unboundedCount) := by
  rw [bounds?, span_ne_append h]
  rfl

theorem bounds?_between {digits digits' : List UInt8} (h : ','.toUInt8 ∉ digits)
    (h' : digits' ≠ []) :
    bounds? (digits ++ ','.toUInt8 :: digits') =
      (count? digits).bind fun m => (count? digits').bind fun n =>
        if m < n ∨ (0 < m ∧ m ≤ n ∧ n < unboundedCount) then some (m, n) else none := by
  obtain ⟨b, rest, rfl⟩ := List.exists_cons_of_ne_nil h'
  rw [bounds?, span_ne_append h]
  rfl

section

variable {body : List UInt8} {m n : UInt8}

theorem counts_of_bounds? (h : bounds? body = some (m, n)) : Counts body m.toNat n.toNat := by
  by_cases hcomma : ','.toUInt8 ∈ body
  · obtain ⟨digits, digits', rfl, hdigits⟩ := List.eq_append_cons_of_mem hcomma
    by_cases hnil : digits' = []
    · subst hnil
      rw [bounds?_atLeast hdigits] at h
      obtain ⟨m', hm, h⟩ := Option.bind_eq_some_iff.1 h
      split at h
      · cases h
      · next hne =>
        cases h
        have hlt := m.toNat_lt
        have hne : m.toNat ≠ 255 := fun heq => hne (UInt8.toNat_inj.1 heq)
        exact .atLeast (count?_eq_some_iff.1 hm) (by omega)
    · rw [bounds?_between hdigits hnil] at h
      obtain ⟨m', hm, h⟩ := Option.bind_eq_some_iff.1 h
      obtain ⟨n', hn, h⟩ := Option.bind_eq_some_iff.1 h
      split at h
      · next horder =>
        cases h
        have hlt := n.toNat_lt
        simp only [UInt8.lt_iff_toNat_lt, UInt8.le_iff_toNat_le] at horder
        have hzero : (0 : UInt8).toNat = 0 := rfl
        have hunbounded : unboundedCount.toNat = 255 := rfl
        exact .between (count?_eq_some_iff.1 hm) (count?_eq_some_iff.1 hn) (by omega) (by omega)
      · cases h
  · rw [bounds?_exactly hcomma] at h
    obtain ⟨n', hn, h⟩ := Option.bind_eq_some_iff.1 h
    split at h
    · next hrange =>
      cases h
      have hpos : 1 ≤ m.toNat := UInt8.le_iff_toNat_le.1 hrange.1
      have hlt : m.toNat < 255 := UInt8.lt_iff_toNat_lt.1 hrange.2
      exact .exactly (count?_eq_some_iff.1 hn) hpos (Nat.le_of_lt_succ hlt)
    · cases h

theorem bounds?_of_counts (h : Counts body m.toNat n.toNat) : bounds? body = some (m, n) := by
  generalize hm : m.toNat = m', hn : n.toNat = n' at h
  cases h with
  | exactly h hpos hle =>
    subst hn
    obtain rfl := UInt8.toNat_inj.1 hm
    rw [bounds?_exactly h.comma_not_mem, count?_eq_some_iff.2 h, Option.bind_some]
    exact if_pos ⟨UInt8.le_iff_toNat_le.2 hpos, UInt8.lt_iff_toNat_lt.2 (Nat.lt_succ_of_le hle)⟩
  | atLeast h hle =>
    subst hm
    obtain rfl : n = unboundedCount := UInt8.toNat_inj.1 hn
    rw [bounds?_atLeast h.comma_not_mem, count?_eq_some_iff.2 h, Option.bind_some]
    refine if_neg ?_
    rintro rfl
    exact absurd hle (by decide)
  | between h h' hle horder =>
    subst hm hn
    rw [bounds?_between h.comma_not_mem h'.ne_nil, count?_eq_some_iff.2 h, Option.bind_some,
      count?_eq_some_iff.2 h', Option.bind_some]
    refine if_pos ?_
    simp only [UInt8.lt_iff_toNat_lt, UInt8.le_iff_toNat_le]
    have hzero : (0 : UInt8).toNat = 0 := rfl
    have hunbounded : unboundedCount.toNat = 255 := rfl
    omega

/-- **The bounds that are read are those that the text between the braces stands for.** -/
theorem bounds?_eq_some_iff : bounds? body = some (m, n) ↔ Counts body m.toNat n.toNat :=
  ⟨counts_of_bounds?, bounds?_of_counts⟩

theorem bounds?_eq_none_iff : bounds? body = none ↔ ∀ m n, ¬Counts body m n := by
  constructor
  · intro hnone m n h
    have hm : (UInt8.ofNat m).toNat = m :=
      UInt8.toNat_ofNat_of_lt' (Nat.lt_succ_of_le (Nat.le_succ_of_le h.le.1))
    have hn : (UInt8.ofNat n).toNat = n := UInt8.toNat_ofNat_of_lt' (Nat.lt_succ_of_le h.le.2)
    rw [← hm, ← hn, ← bounds?_eq_some_iff, hnone] at h
    cases h
  · intro hnone
    refine Option.eq_none_iff_forall_ne_some.2 fun ⟨m, n⟩ h => ?_
    exact hnone _ _ (counts_of_bounds? h)

end

/-! ### Braces -/

section

variable {rest body tail front back : List UInt8} {b : UInt8}

theorem braces_unclosed (h : '\x7d'.toUInt8 ∉ rest) : braces rest = .error ⟨.invalidCount, 0⟩ := by
  have htake : rest.takeWhile (· ≠ '\x7d'.toUInt8) = rest :=
    List.takeWhile_eq_self_iff.2 fun b hb => decide_eq_true fun heq => h (heq ▸ hb)
  unfold braces
  rw [htake]
  exact if_pos rfl

/-- What is read up to the brace that closes. -/
theorem braces_eq (h : '\x7d'.toUInt8 ∉ body) (tail : List UInt8) :
    braces (body ++ '\x7d'.toUInt8 :: tail) =
      match body.findIdx? isAsciiBlank with
      | some i => .error ⟨.whitespaceInBraces, i + 1⟩
      | none =>
        match bounds? body with
        | some (m, n) => .ok (m, n, body.length + 2)
        | none => .error ⟨.invalidCount, 0⟩ := by
  unfold braces
  rw [takeWhile_ne_append h]
  exact if_neg (by simp)

theorem braces_blank (h : '\x7d'.toUInt8 ∉ front ++ b :: back) (hb : b ∈ whiteSpace)
    (hfront : ∀ c ∈ front, c ∉ whiteSpace) :
    braces (front ++ b :: back ++ '\x7d'.toUInt8 :: tail) =
      .error ⟨.whitespaceInBraces, front.length + 1⟩ := by
  have hnone : front.findIdx? isAsciiBlank = none :=
    List.findIdx?_eq_none_iff.2 fun c hc => isAsciiBlank_eq_false_iff.2 (hfront c hc)
  have hfind : (front ++ b :: back).findIdx? isAsciiBlank = some front.length := by
    rw [List.findIdx?_append, hnone, List.findIdx?_cons, if_pos (isAsciiBlank_iff.2 hb),
      Option.map_some, Nat.zero_add, Option.none_or]
  rw [braces_eq h, hfind]

theorem braces_closed (h : '\x7d'.toUInt8 ∉ body) (hblank : ∀ b ∈ body, b ∉ whiteSpace) :
    braces (body ++ '\x7d'.toUInt8 :: tail) =
      match bounds? body with
      | some (m, n) => .ok (m, n, body.length + 2)
      | none => .error ⟨.invalidCount, 0⟩ := by
  have hnone : body.findIdx? isAsciiBlank = none :=
    List.findIdx?_eq_none_iff.2 fun b hb => isAsciiBlank_eq_false_iff.2 (hblank b hb)
  rw [braces_eq h, hnone]

/-- What is wrong behind a brace is the error that is given. -/
theorem braces_of_misbraced {e : SyntaxError} (h : Misbraced rest e) : braces rest = .error e := by
  cases h with
  | unclosed h => exact braces_unclosed h
  | blank h hb hfront => exact braces_blank h hb hfront
  | malformed h hblank hcounts => rw [braces_closed h hblank, bounds?_eq_none_iff.2 hcounts]

/-- Bounds in braces are read, with what they stand for. -/
theorem braces_of_counts {m n : UInt8} (h : '\x7d'.toUInt8 ∉ body)
    (hcounts : Counts body m.toNat n.toNat) :
    braces (body ++ '\x7d'.toUInt8 :: tail) = .ok (m, n, body.length + 2) := by
  rw [braces_closed h hcounts.not_blank, bounds?_of_counts hcounts]

/-- Behind a brace there are bounds, or something is wrong. -/
theorem braces_cases (rest : List UInt8) :
    (∃ body tail m n, rest = body ++ '\x7d'.toUInt8 :: tail ∧ '\x7d'.toUInt8 ∉ body ∧
      Counts body (UInt8.toNat m) (UInt8.toNat n)) ∨ ∃ e, Misbraced rest e := by
  by_cases hclose : '\x7d'.toUInt8 ∈ rest
  · obtain ⟨body, tail, rfl, hbody⟩ := List.eq_append_cons_of_mem hclose
    cases hfind : body.find? isAsciiBlank with
    | some b =>
      obtain ⟨hb, front, back, rfl, hfront⟩ := List.find?_eq_some_iff_append.1 hfind
      refine Or.inr ⟨_, .blank hbody (isAsciiBlank_iff.1 hb) fun c hc => ?_⟩
      exact isAsciiBlank_eq_false_iff.1 (by simpa using hfront c hc)
    | none =>
      have hblank : ∀ b ∈ body, b ∉ whiteSpace :=
        fun b hb hwhite => List.find?_eq_none.1 hfind b hb (isAsciiBlank_iff.2 hwhite)
      cases hbounds : bounds? body with
      | some bounds => exact Or.inl ⟨body, tail, _, _, rfl, hbody, counts_of_bounds? hbounds⟩
      | none => exact Or.inr ⟨_, .malformed hbody hblank (bounds?_eq_none_iff.1 hbounds)⟩
  · exact Or.inr ⟨_, .unclosed hclose⟩

/-- Where bounds are read, the text up to the brace that closes stands for them. -/
theorem exists_of_braces {m n : UInt8} {length : Nat} (h : braces rest = .ok (m, n, length)) :
    ∃ body tail, rest = body ++ '\x7d'.toUInt8 :: tail ∧ '\x7d'.toUInt8 ∉ body ∧
      Counts body m.toNat n.toNat ∧ length = body.length + 2 := by
  rcases braces_cases rest with ⟨body, tail, m', n', rfl, hclose, hcounts⟩ | ⟨e, hwrong⟩
  · rw [braces_of_counts hclose hcounts] at h
    cases h
    exact ⟨body, tail, rfl, hclose, hcounts, rfl⟩
  · rw [braces_of_misbraced hwrong] at h
    cases h

theorem misbraced_of_braces {e : SyntaxError} (h : braces rest = .error e) : Misbraced rest e := by
  rcases braces_cases rest with ⟨body, tail, m, n, rfl, hclose, hcounts⟩ | ⟨e', hwrong⟩
  · rw [braces_of_counts hclose hcounts] at h
    cases h
  · rw [braces_of_misbraced hwrong] at h
    cases h
    exact hwrong

end

end TokenKind

end BoundedRegex
