import BoundedRegex.Text.Blank
import BoundedRegex.Text.Numeral

/-!
# Reading numerals

A size in decimal is read back (`size?_toDigits`), and a numeral has no characters but digits and
a plus sign in front (`mem_of_numeral?`).
-/

namespace BoundedRegex.Text

variable {base bound n value : Nat} {c : Char} {text : List Char}

theorem hexValue?_of_isDigit (h : c.isDigit = true) :
    hexValue? c = some (c.toNat - '0'.toNat) := by
  have hrange := Char.isDigit_iff_toNat.1 h
  rw [hexValue?, if_pos (⟨hrange.1, hrange.2⟩ : '0' ≤ c ∧ c ≤ '9')]

theorem isBlank_of_isDigit (h : c.isDigit = true) : isBlank c = false := by
  have hrange := Char.isDigit_iff_toNat.1 h
  have hzero : '0'.toNat = 48 := rfl
  have hnine : '9'.toNat = 57 := rfl
  simp only [isBlank, Bool.or_eq_false_iff, Bool.and_eq_false_iff, decide_eq_false_iff_not]
  omega

theorem digitsValue?_of_isDigit (h : ∀ c ∈ text, c.isDigit = true) :
    digitsValue? 10 n text = some (Nat.ofDigitChars 10 text n) := by
  induction text generalizing n with
  | nil => rfl
  | cons c text ih =>
    have hc := h c List.mem_cons_self
    have hlt : c.toNat - '0'.toNat < 10 := by
      have hle : c.toNat ≤ '9'.toNat := (Char.isDigit_iff_toNat.1 hc).2
      have hnine : '9'.toNat = '0'.toNat + 9 := rfl
      omega
    simp only [digitsValue?, hexValue?_of_isDigit hc, if_pos hlt]
    exact ih fun d hd => h d (List.mem_cons_of_mem _ hd)

theorem isDigit_of_mem_toDigits (h : c ∈ Nat.toDigits 10 n) : c.isDigit = true :=
  Nat.isDigit_of_mem_toDigits (by decide) (Nat.le_refl 10) h

/-- A numeral is digits, behind a plus sign or not. -/
theorem numeral?_eq_some_iff : numeral? base bound text = some value ↔
    ∃ digits, (text = '+' :: digits ∨ text = digits ∧ text.head? ≠ some '+') ∧ digits ≠ [] ∧
      digitsValue? base 0 digits = some value ∧ value ≤ bound := by
  have hread (digits : List Char) :
      (if digits = [] then none else (digitsValue? base 0 digits).filter (· ≤ bound)) = some value ↔
        digits ≠ [] ∧ digitsValue? base 0 digits = some value ∧ value ≤ bound := by
    simp [Option.filter_eq_some_iff]
  by_cases hplus : text.head? = some '+'
  · obtain ⟨rest, rfl⟩ := List.head?_eq_some_iff.1 hplus
    simp [numeral?, hread]
  · rw [numeral?]
    · refine (hread text).trans ⟨fun h => ⟨text, Or.inr ⟨rfl, hplus⟩, h⟩, ?_⟩
      rintro ⟨digits, rfl | ⟨rfl, -⟩, h⟩
      · exact absurd rfl hplus
      · exact h
    · exact fun rest heq => hplus (heq ▸ rfl)

/-- A size in decimal is read back. -/
theorem size?_toDigits (h : n ≤ maxSize) : size? (Nat.toDigits 10 n) = some n := by
  have hplus : (Nat.toDigits 10 n).head? ≠ some '+' := fun hhead =>
    absurd (isDigit_of_mem_toDigits (List.mem_of_mem_head? hhead)) (by decide)
  refine numeral?_eq_some_iff.2 ⟨_, Or.inr ⟨rfl, hplus⟩, Nat.toDigits_ne_nil, ?_, h⟩
  rw [digitsValue?_of_isDigit fun _ => isDigit_of_mem_toDigits,
    Nat.ofDigitChars_toDigits (by decide) (Nat.le_refl 10)]

theorem mem_of_digitsValue? (h : digitsValue? base n text = some value) (hc : c ∈ text) :
    hexValue? c ≠ none := by
  induction text generalizing n with
  | nil => cases hc
  | cons d text ih =>
    rw [digitsValue?] at h
    cases hd : hexValue? d with
    | none => rw [hd] at h; cases h
    | some v =>
      rw [hd] at h
      rcases List.mem_cons.1 hc with rfl | hc
      · rw [hd]; exact Option.some_ne_none v
      · dsimp only at h
        split at h
        · exact ih h hc
        · cases h

/-- A numeral has no characters but digits and a plus sign. -/
theorem mem_of_numeral? (h : numeral? base bound text = some value) (hc : c ∈ text) :
    c = '+' ∨ hexValue? c ≠ none := by
  obtain ⟨digits, rfl | ⟨rfl, -⟩, -, hvalue, -⟩ := numeral?_eq_some_iff.1 h
  · exact (List.mem_cons.1 hc).imp id fun hc => mem_of_digitsValue? hvalue hc
  · exact Or.inr (mem_of_digitsValue? hvalue hc)

end BoundedRegex.Text
