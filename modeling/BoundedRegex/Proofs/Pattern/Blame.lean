import BoundedRegex.Proofs.Bracketed
import BoundedRegex.Proofs.Pattern.Lexing

/-!
# What an error points at

Each kind of error can be at certain bytes only (`SyntaxError.Kind.Blames`).  A text that is no
token is refused at such a byte (`TokenKind.pointsAt_of_scan`).  A token that can be read may be
refused later on, when it turns out not to fit where it stands, and so may an opening bracket when
the pattern ends.  What can be wrong with a token is listed by `TokenKind.faults`, and each of these
is blamed on the byte that the token starts with (`Lexemes.pointsAt_of_mem`).
-/

namespace BoundedRegex

/-! ### Places -/

namespace SyntaxError

/-- There is a byte, and it is one of some characters. -/
def OneOf (cs : List Char) (b : Option UInt8) : Prop :=
  ∃ x ∈ b, Char.ofUInt8 x ∈ cs

/-- Whether an error of a kind can be behind the text `front`, at the byte `b`, or at the end of the
pattern if there is no such byte. -/
def Kind.Blames (kind : Kind) (front : List UInt8) (b : Option UInt8) : Prop :=
  match kind with
  | .unknownEscape => OneOf ['\\'] b
  | .unterminatedSet => OneOf ['['] b
  | .malformedRange => b ≠ none ∧ '[' ∈ front.map Char.ofUInt8
  | .invalidCount => OneOf ['\x7b'] b
  | .whitespaceInBraces => ∃ x ∈ b, x ∈ whiteSpace
  | .nothingToRepeat | .unboundedEmptyRepetition => OneOf ['?', '*', '+', '\x7b'] b
  | .unterminatedGroup | .nestingTooDeep => OneOf ['(', '<'] b
  | .tooManyCaptures => OneOf ['<'] b
  | .mismatchedCaptureGroup => OneOf [')', '>'] b
  | .unbalancedBracket => OneOf [')', '>', ']', '\x7d'] b
  | .emptyExpression => b = none ∨ OneOf ['|', ')', '>'] b
  | .tooLarge => True

/-- An error is in a text, or at its end, at a byte that it can be about. -/
structure PointsAt (text : List UInt8) (e : SyntaxError) : Prop where
  le : e.position ≤ text.length
  blames : e.kind.Blames (text.take e.position) text[e.position]?

variable {kind : Kind} {front back text : List UInt8} {b : Option UInt8} {e : SyntaxError}

/-- What is in front matters only in that a bracket is there. -/
theorem Kind.Blames.mono {front' : List UInt8} (h : kind.Blames front b) (hsub : front ⊆ front') :
    kind.Blames front' b := by
  cases kind
  case malformedRange => exact ⟨h.1, List.map_subset _ hsub h.2⟩
  all_goals exact h

namespace PointsAt

theorem of_append (h : kind.Blames front back.head?) :
    PointsAt (front ++ back) ⟨kind, front.length⟩ where
  le := by
    rw [List.length_append]
    exact Nat.le_add_right ..
  blames := by
    rw [List.take_left, List.getElem?_append_right (Nat.le_refl _), Nat.sub_self,
      ← List.head?_eq_getElem?]
    exact h

theorem at_start (h : kind.Blames [] text.head?) : PointsAt text ⟨kind, 0⟩ :=
  of_append h

/-- An error in the rest of a text is one in the text. -/
theorem of_drop {pos : Nat} {x : UInt8} {rest : List UInt8} (hdrop : text.drop pos = x :: rest)
    (h : e.PointsAt (x :: rest)) : (e.shift pos).PointsAt text where
  le := by
    have hlength := congrArg List.length hdrop
    rw [List.length_drop, List.length_cons] at hlength
    have hle := h.le
    rw [List.length_cons] at hle
    show pos + e.position ≤ text.length
    omega
  blames := by
    have hblames := h.blames
    rw [← hdrop, List.getElem?_drop, List.take_drop] at hblames
    exact hblames.mono (List.drop_subset ..)

end PointsAt

end SyntaxError

/-! ### Texts that are no tokens -/

/-- What is wrong in a set is wrong at the bracket that opens it, or at a byte behind that. -/
theorem SetFault.pointsAt {first : Bool} {b : UInt8} {front tail : List UInt8} {e : SyntaxError}
    (hb : Char.ofUInt8 b = '[') (h : SetFault first (front.length + 1) tail e) :
    e.PointsAt (b :: front ++ tail) := by
  cases h with
  | unterminated =>
    exact .at_start ⟨b, rfl, List.mem_singleton.2 hb⟩
  | escape =>
    exact .of_append ⟨_, rfl, by decide⟩
  | @rangeEscape w text =>
    have htext : b :: front ++ (w ++ '-'.toUInt8 :: '\\'.toUInt8 :: text) =
        (b :: front ++ (w ++ ['-'.toUInt8])) ++ '\\'.toUInt8 :: text := by simp
    have hpos : front.length + 1 + w.length + 1 =
        (b :: front ++ (w ++ ['-'.toUInt8])).length := by simp; omega
    rw [htext, hpos]
    exact .of_append ⟨_, rfl, by decide⟩
  | range h =>
    obtain ⟨c, w, rfl, -⟩ := TokenKind.item?_of_itemAt h
    refine .of_append ⟨nofun, ?_⟩
    rw [List.map_cons, hb]
    exact List.mem_cons_self

namespace TokenKind

variable {b : UInt8} {rest : List UInt8} {e : SyntaxError}

theorem pointsAt_of_bracketed (hb : Char.ofUInt8 b = '[') (h : bracketed rest = .error e) :
    e.PointsAt (b :: rest) := by
  rcases bracketed_cases rest with ⟨inverted, ms, length, hform⟩ | ⟨e', hbroken⟩
  · rw [bracketed_of_form hform] at h
    cases h
  · rw [bracketed_of_broken hbroken] at h
    cases h
    obtain @⟨inverted, w, tail, ms, _, -, -, hfault⟩ := hbroken
    have hpos : (caret inverted).length + 1 + w.length = (caret inverted ++ w).length + 1 := by
      rw [List.length_append]
      omega
    rw [hpos] at hfault
    rw [← List.append_assoc]
    exact hfault.pointsAt hb

theorem pointsAt_of_braces (hb : Char.ofUInt8 b = '\x7b') (h : braces rest = .error e) :
    e.PointsAt (b :: rest) := by
  have hopen : SyntaxError.OneOf ['\x7b'] (some b) := ⟨b, rfl, List.mem_singleton.2 hb⟩
  cases misbraced_of_braces h with
  | unclosed => exact .at_start hopen
  | malformed => exact .at_start hopen
  | @blank front back tail x _ hx =>
    have htext : b :: (front ++ x :: back ++ '\x7d'.toUInt8 :: tail) =
        (b :: front) ++ x :: (back ++ '\x7d'.toUInt8 :: tail) := by simp
    rw [htext]
    exact .of_append ⟨x, rfl, hx⟩

/-- **A text that is no token is refused at a byte that is to blame.** -/
theorem pointsAt_of_scan (h : scan b rest = .error e) : e.PointsAt (b :: rest) := by
  unfold scan at h
  generalize hb : Char.ofUInt8 b = c at h
  split at h
  case h_9 | h_10 =>
    cases h
    exact .at_start ⟨b, rfl, by rw [hb]; decide⟩
  case h_14 =>
    split at h
    · cases h
    · next hbraces =>
      cases h
      exact pointsAt_of_braces hb hbraces
  case h_15 =>
    split at h
    · cases h
    · next hset =>
      cases h
      exact pointsAt_of_bracketed hb hset
  case h_16 =>
    split at h
    case h_3 =>
      cases h
      exact .at_start ⟨b, rfl, List.mem_singleton.2 hb⟩
    all_goals cases h
  all_goals cases h

/-! ### Tokens -/

/-- What a token starts with, unless it is an element, which may start with anything. -/
def Starts (kind : TokenKind) (c : Char) : Prop :=
  match kind with
  | .groupOpen => c = '('
  | .groupClose => c = ')'
  | .captureOpen => c = '<'
  | .captureClose => c = '>'
  | .alternation => c = '|'
  | .quantifier _ => c ∈ ['?', '*', '+', '\x7b']
  | _ => True

theorem starts_of_scan {kind : TokenKind} {n : Nat} (h : scan b rest = .ok (kind, n)) :
    kind.Starts (Char.ofUInt8 b) := by
  have hquantifier {c : Char} {min max : UInt8} {m : Nat} {text : List UInt8}
      (hc : c ∈ ['?', '*', '+', '\x7b'])
      (h : (.ok (quantified min max m text) : Except SyntaxError (TokenKind × Nat)) =
        .ok (kind, n)) : kind.Starts c := by
    unfold quantified at h
    split at h <;> cases h <;> exact hc
  unfold scan at h
  generalize Char.ofUInt8 b = c at h ⊢
  split at h
  case h_9 | h_10 => cases h
  case h_11 | h_12 | h_13 => exact hquantifier (by decide) h
  case h_14 =>
    split at h
    · exact hquantifier (by decide) h
    · cases h
  case h_15 | h_16 => split at h <;> cases h <;> trivial
  all_goals cases h; trivial

/-- What can be wrong with a token in its place. -/
def faults : TokenKind → List SyntaxError.Kind
  | .groupOpen => [.nestingTooDeep, .unterminatedGroup, .tooLarge]
  | .captureOpen => [.nestingTooDeep, .tooManyCaptures, .unterminatedGroup, .tooLarge]
  | .groupClose | .captureClose =>
    [.unbalancedBracket, .emptyExpression, .mismatchedCaptureGroup, .tooLarge]
  | .alternation => [.emptyExpression, .tooLarge]
  | .quantifier _ => [.nothingToRepeat, .unboundedEmptyRepetition, .tooLarge]
  | _ => [.tooLarge]

/-- **What can be wrong with a token is blamed on its first byte.** -/
theorem Starts.blames {kind : TokenKind} (h : kind.Starts (Char.ofUInt8 b)) (front : List UInt8) :
    ∀ k ∈ kind.faults, k.Blames front (some b) := by
  have hone {cs : List Char} (hc : Char.ofUInt8 b ∈ cs) : SyntaxError.OneOf cs (some b) :=
    ⟨b, rfl, hc⟩
  generalize Char.ofUInt8 b = c at h hone
  cases kind <;>
    simp only [faults, List.forall_mem_cons, List.not_mem_nil, false_imp_iff, implies_true,
      and_true]
  case groupOpen =>
    obtain rfl : c = '(' := h
    exact ⟨hone (by decide), hone (by decide), trivial⟩
  case captureOpen =>
    obtain rfl : c = '<' := h
    exact ⟨hone (by decide), hone (by decide), hone (by decide), trivial⟩
  case groupClose =>
    obtain rfl : c = ')' := h
    exact ⟨hone (by decide), Or.inr (hone (by decide)), hone (by decide), trivial⟩
  case captureClose =>
    obtain rfl : c = '>' := h
    exact ⟨hone (by decide), Or.inr (hone (by decide)), hone (by decide), trivial⟩
  case alternation =>
    obtain rfl : c = '|' := h
    exact ⟨Or.inr (hone (by decide)), trivial⟩
  case quantifier => exact ⟨hone h, hone h, trivial⟩
  all_goals trivial

end TokenKind

namespace Lexemes

variable {pattern text : List UInt8} {pos : Nat}

/-- The token at the start of a text leaves the text that it is not part of. -/
theorem drop_of_scan {b : UInt8} {rest : List UInt8} {kind : TokenKind} {n : Nat}
    (hscan : TokenKind.scan b rest = .ok (kind, n)) (h : pattern.drop pos = b :: rest) :
    pattern.drop (pos + n) = rest.drop (n - 1) := by
  obtain ⟨-, hpos, -⟩ := TokenKind.scan_append hscan (q := []) (by simp)
  obtain ⟨m, rfl⟩ := Nat.exists_eq_add_of_lt hpos
  rw [← List.drop_drop, h]
  simp

/-- **What can be wrong with a token of a pattern is blamed on the byte where the token is.** -/
theorem pointsAt_of_mem {t : Token} (ht : t ∈ (ofPattern pattern).tokens)
    {k : SyntaxError.Kind} (hk : k ∈ t.kind.faults) :
    SyntaxError.PointsAt pattern ⟨k, t.position⟩ := by
  suffices hfrom : ∀ pos text, pattern.drop pos = text → t ∈ (ofText pos text).tokens →
      SyntaxError.PointsAt pattern ⟨k, t.position⟩ from hfrom 0 pattern rfl ht
  intro pos text htext ht
  induction pos, text using ofText.induct with
  | case1 pos =>
    rw [ofText_nil] at ht
    cases ht
  | case2 pos b rest e hscan =>
    rw [ofText, hscan] at ht
    cases ht
  | case3 pos b rest kind n hscan ih =>
    rw [ofText_cons hscan rfl] at ht
    cases ht with
    | head =>
      have hblames := (TokenKind.starts_of_scan hscan).blames [] k hk
      exact SyntaxError.PointsAt.of_drop htext (.at_start hblames)
    | tail _ ht => exact ih (drop_of_scan hscan htext) ht

/-- **A pattern that cannot be read to its end is refused at a byte that is to blame.** -/
theorem pointsAt_of_ending {e : SyntaxError} (h : (ofPattern pattern).ending = .error e) :
    e.PointsAt pattern := by
  suffices hfrom : ∀ pos text, pattern.drop pos = text → (ofText pos text).ending = .error e →
      e.PointsAt pattern from hfrom 0 pattern rfl h
  intro pos text htext h
  induction pos, text using ofText.induct with
  | case1 pos =>
    rw [ofText_nil] at h
    cases h
  | case2 pos b rest e' hscan =>
    rw [ofText, hscan] at h
    cases h
    exact .of_drop htext (TokenKind.pointsAt_of_scan hscan)
  | case3 pos b rest kind n hscan ih =>
    rw [ofText_cons hscan rfl] at h
    exact ih (drop_of_scan hscan htext) h

/-- A pattern that can be read to its end ends there. -/
theorem length_of_ending {length : Nat} (h : (ofPattern pattern).ending = .ok length) :
    length = pattern.length := by
  obtain ⟨hlength, -⟩ := ofText_append (q := []) h (by simp)
  rw [hlength, Nat.zero_add]

end Lexemes

end BoundedRegex
