import BoundedRegex.Proofs.Pattern.SetText

/-!
# Bracketed sets

An opening bracket reads a set just where the text behind it has the form of one, and the set then
contains what its members stand for, or everything else if it is inverted; in any other text it fails
where the form is first broken (`TokenKind.bracketed_iff`).
-/

namespace BoundedRegex

/-- The mark of an inverted set. -/
def caret (inverted : Bool) : List UInt8 :=
  if inverted then ['^'.toUInt8] else []

/-- A text behind an opening bracket that has the form of a set: a mark or none, members, at least
one, and the closing bracket.  A `^` at the start is always the mark.  The length is that of the set
with both brackets. -/
inductive SetForm : List UInt8 → Bool → List SetMember → Nat → Prop where
  | mk {inverted : Bool} {w rest : List UInt8} {ms : List SetMember}
      (hcaret : inverted = false → (w ++ ']'.toUInt8 :: rest).head? ≠ some '^'.toUInt8)
      (h : MembersText true w ms (']'.toUInt8 :: rest)) (hne : ms ≠ []) :
      SetForm (caret inverted ++ (w ++ ']'.toUInt8 :: rest)) inverted ms
        ((caret inverted).length + w.length + 2)

/-- A text behind an opening bracket, which is at offset 0, that has not the form of a set: a mark or
none, members, and then what is neither another member nor, behind a first one, the closing
bracket. -/
inductive SetBroken : List UInt8 → SyntaxError → Prop where
  | mk {inverted : Bool} {w tail : List UInt8} {ms : List SetMember} {e : SyntaxError}
      (hcaret : inverted = false → (w ++ tail).head? ≠ some '^'.toUInt8)
      (h : MembersText true w ms tail)
      (hfault : SetFault ms.isEmpty ((caret inverted).length + 1 + w.length) tail e) :
      SetBroken (caret inverted ++ (w ++ tail)) e

namespace TokenKind

/-- Behind the mark, or where none is, members are read. -/
theorem bracketed_caret {inverted : Bool} {text : List UInt8}
    (hcaret : inverted = false → text.head? ≠ some '^'.toUInt8) :
    bracketed (caret inverted ++ text) =
      members ((caret inverted).length + 1) true { inverted } text := by
  cases inverted with
  | true =>
    show bracketed ('^'.toUInt8 :: text) = _
    rw [bracketed, if_pos rfl]
    rfl
  | false =>
    cases text with
    | nil => exact members_nil.symm
    | cons b text => exact if_neg fun hb => hcaret rfl (congrArg some hb)

theorem exists_caret (text : List UInt8) : ∃ inverted body, text = caret inverted ++ body ∧
    (inverted = false → body.head? ≠ some '^'.toUInt8) := by
  by_cases h : text.head? = some '^'.toUInt8
  · obtain ⟨body, rfl⟩ := List.head?_eq_some_iff.1 h
    exact ⟨true, body, rfl, fun hinverted => by cases hinverted⟩
  · exact ⟨false, text, rfl, fun _ => h⟩

end TokenKind

/-- What a set contains to which members have been added. -/
theorem ByteSet.contains_foldl_insertMember (inverted : Bool) (ms : List SetMember) (b : UInt8) :
    (ms.foldl insertMember { inverted }).contains b = true ↔
      ((∃ m ∈ ms, m.Has b) ↔ inverted = false) := by
  have hbit := bit_foldl (s := { inverted }) (b := b) bit_insertMember ms
  rw [or_iff_left (by simp [bit])] at hbit
  rw [contains, inverted_foldl_insertMember, ← hbit]
  cases inverted <;> simp

namespace TokenKind

variable {text : List UInt8}

/-- A text that has the form of a set is read as the set of its members. -/
theorem bracketed_of_form {inverted : Bool} {ms : List SetMember} {length : Nat}
    (h : SetForm text inverted ms length) :
    bracketed text = .ok (ms.foldl ByteSet.insertMember { inverted }, length) := by
  obtain ⟨hcaret, h, hne⟩ := h
  rw [bracketed_caret hcaret]
  refine members_of_outcome ⟨_, _, _, rfl, h, ?_, rfl, by omega⟩
  rw [Bool.true_and]
  exact List.isEmpty_eq_false_iff.2 hne

/-- Where the form is broken, that is the error that is given. -/
theorem bracketed_of_broken {e : SyntaxError} (h : SetBroken text e) :
    bracketed text = .error e := by
  obtain ⟨hcaret, h, hfault⟩ := h
  rw [bracketed_caret hcaret]
  exact members_of_outcome ⟨_, _, _, rfl, h, hfault⟩

/-- A text has the form of a set, or the form is broken somewhere. -/
theorem bracketed_cases (text : List UInt8) :
    (∃ inverted ms length, SetForm text inverted ms length) ∨ ∃ e, SetBroken text e := by
  obtain ⟨inverted, body, rfl, hcaret⟩ := exists_caret text
  have houtcome := members_outcome ((caret inverted).length + 1) true { inverted } body
  cases hread : members ((caret inverted).length + 1) true { inverted } body with
  | ok r =>
    rw [hread] at houtcome
    obtain ⟨w, ms, rest, rfl, hmembers, hne, -, -⟩ := houtcome
    exact Or.inl ⟨_, _, _, .mk hcaret hmembers (List.isEmpty_eq_false_iff.1 hne)⟩
  | error e =>
    rw [hread] at houtcome
    obtain ⟨w, ms, tail, rfl, hmembers, hfault⟩ := houtcome
    exact Or.inr ⟨_, .mk hcaret hmembers hfault⟩

/-- **Bracketed sets mean what their grammar says.**  Behind an opening bracket a set is read just if
the text has the form of one: a mark or none, one member or more, and a closing bracket, with which
the token ends.  The polarity of the set is that of the mark, and it contains a byte just if the byte
belongs to one of the members and there is no mark, or to none of them and there is one.  In every
other text, and only there, the form is broken; the error that is given is the one where it first
is. -/
theorem bracketed_iff (text : List UInt8) :
    (∀ s length, bracketed text = .ok (s, length) ↔
      ∃ ms, SetForm text s.inverted ms length ∧
        ∀ b, s.contains b = true ↔ ((∃ m ∈ ms, m.Has b) ↔ s.inverted = false)) ∧
    ∀ e, bracketed text = .error e ↔ SetBroken text e := by
  constructor
  · intro s length
    constructor
    · intro h
      rcases bracketed_cases text with ⟨inverted, ms, length', hform⟩ | ⟨e, hbroken⟩
      · rw [bracketed_of_form hform] at h
        cases h
        have hinverted : (ms.foldl ByteSet.insertMember { inverted }).inverted = inverted :=
          ByteSet.inverted_foldl_insertMember ms
        rw [hinverted]
        exact ⟨ms, hform, ByteSet.contains_foldl_insertMember inverted ms⟩
      · rw [bracketed_of_broken hbroken] at h
        cases h
    · rintro ⟨ms, hform, hcontains⟩
      rw [bracketed_of_form hform]
      have hs : ms.foldl ByteSet.insertMember { inverted := s.inverted } = s := by
        refine ByteSet.eq_of_contains (ByteSet.inverted_foldl_insertMember ms) fun b => ?_
        rw [hcontains, ByteSet.contains_foldl_insertMember]
      rw [hs]
  · intro e
    constructor
    · intro h
      rcases bracketed_cases text with ⟨inverted, ms, length, hform⟩ | ⟨e', hbroken⟩
      · rw [bracketed_of_form hform] at h
        cases h
      · rw [bracketed_of_broken hbroken] at h
        cases h
        exact hbroken
    · exact bracketed_of_broken

/-- Behind an opening bracket, `]-a]` is a range that starts with a bracket. -/
example : (bracketed [0x5d, 0x2d, 0x61, 0x5d]).toOption = some ({ bits := bitSpan 0x5d 5 }, 5) := by
  decide +kernel

end TokenKind

end BoundedRegex
