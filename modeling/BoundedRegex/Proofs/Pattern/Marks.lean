import Mathlib.Logic.Relation
import BoundedRegex.Proofs.Compile.Compiler
import BoundedRegex.Proofs.Pattern.Greed
import BoundedRegex.Proofs.Pattern.Lexing

/-!
# Question marks behind quantifiers

A question mark behind a greedy quantifier makes it a quantifier that is not greedy.  Patterns that
come from each other by adding such question marks, and by taking them away, are equal but for
greed.

* `TokenKind.scan_mark`: a question mark behind a greedy quantifier belongs to it, and changes
  nothing but its greediness.
* `Lexemes.ofText_mark`: one more question mark leaves the tokens as they are otherwise.
* `EqualButForGreed.readAlike`: patterns that are equal but for greed have the same tokens but for
  greediness, and can all be read to their ends if one can.
-/

namespace BoundedRegex

namespace TokenKind

/-- A quantifier that is not greedy. -/
def lazily (q : Quantifier) : TokenKind :=
  .quantifier { q with greedy := false }

theorem exists_of_isGreedy {t : TokenKind} (h : t.isGreedy = true) :
    ∃ q : Quantifier, t = .quantifier q ∧ q.greedy = true := by
  cases t with
  | quantifier q => exact ⟨q, rfl, h⟩
  | _ => cases h

/-- Counts with nothing behind them are those of a quantifier that a question mark makes lazy. -/
theorem quantified_mark {min max : UInt8} {k n : Nat} {rest : List UInt8} {q : Quantifier}
    (h : quantified min max k rest = (.quantifier q, n)) (hq : q.greedy = true) :
    n = k ∧ quantified min max k ['?'.toUInt8] = (lazily q, n + 1) := by
  unfold quantified at h
  split at h
  · cases h
    cases hq
  · cases h
    exact ⟨rfl, rfl⟩

/-- **A question mark behind a greedy quantifier makes it lazy**, and changes nothing else. -/
theorem scan_mark {b : UInt8} {rest : List UInt8} {q : Quantifier}
    (h : scan b rest = .ok (.quantifier q, rest.length + 1)) (hq : q.greedy = true) :
    scan b (rest ++ ['?'.toUInt8]) = .ok (lazily q, rest.length + 2) := by
  have hquantifier {min max : UInt8} {k : Nat}
      (h : (.ok (quantified min max k (rest.drop (k - 1))) :
        Except SyntaxError (TokenKind × Nat)) = .ok (.quantifier q, rest.length + 1)) :
      (.ok (quantified min max k ((rest ++ ['?'.toUInt8]).drop (k - 1))) :
        Except SyntaxError (TokenKind × Nat)) = .ok (lazily q, rest.length + 2) := by
    obtain ⟨rfl, hmark⟩ := quantified_mark (Except.ok.inj h) hq
    rw [Nat.add_sub_cancel, List.drop_left, hmark]
  unfold scan at h ⊢
  generalize Char.ofUInt8 b = c at h ⊢
  split at h
  case h_11 | h_12 | h_13 => exact hquantifier h
  case h_14 =>
    split at h
    · next hbraces =>
      rw [(braces_append hbraces _).1]
      exact hquantifier h
    · cases h
  case h_15 | h_16 => split at h <;> cases h
  all_goals cases h

end TokenKind

namespace Lexemes

variable {pos length : Nat} {text : List UInt8}

/-- Whether a text can be read to its end. -/
def Readable (text : List UInt8) : Prop :=
  ∃ length, (ofPattern text).ending = .ok length

/-- The tokens, without their places and all of them greedy. -/
def outline (ls : Lexemes) : List TokenKind :=
  ls.tokens.map (·.kind.greedily)

theorem outline_followedBy (ls : Lexemes) (pos : Nat) (q : List UInt8) :
    (ls.followedBy pos q).outline = ls.outline ++ (ofText pos q).outline :=
  List.map_append

/-- Where a text starts makes no difference to what its tokens are. -/
theorem outline_ofText (pos : Nat) (text : List UInt8) :
    (ofText pos text).outline = (ofPattern text).outline := by
  rw [ofPattern, ← Nat.add_zero pos, ofText_add, outline, shift, List.map_map]
  rfl

/-- Where a text starts makes no difference to whether it can be read. -/
theorem ending_ok_iff (pos : Nat) (text : List UInt8) :
    (∃ length, (ofText pos text).ending = .ok length) ↔ Readable text := by
  rw [Readable, ofPattern, ← Nat.add_zero pos, ofText_add]
  unfold shift
  cases (ofText 0 text).ending with
  | ok length => exact ⟨fun _ => ⟨_, rfl⟩, fun _ => ⟨_, rfl⟩⟩
  | error e =>
    constructor
    · rintro ⟨_, h⟩
      cases h
    · rintro ⟨_, h⟩
      cases h

theorem eq_nil_of_tokens_eq_nil (hend : (ofText pos text).ending = .ok length)
    (h : (ofText pos text).tokens = []) : text = [] := by
  cases text with
  | nil => rfl
  | cons b rest =>
    rw [ofText] at hend h
    split at h
    · next heq =>
      rw [heq] at hend
      cases hend
    · cases h

/-- A question mark behind a text that ends with a greedy quantifier. -/
theorem ofText_mark {t : Token} (hend : (ofText pos text).ending = .ok length)
    (ht : (ofText pos text).tokens.getLast? = some t) (hgreedy : t.kind.isGreedy = true) :
    (∃ length', (ofText pos (text ++ ['?'.toUInt8])).ending = .ok length') ∧
      (ofText pos (text ++ ['?'.toUInt8])).outline = (ofText pos text).outline := by
  induction pos, text using ofText.induct with
  | case1 pos =>
    rw [ofText_nil] at ht
    cases ht
  | case2 pos b rest e hscan =>
    rw [ofText, hscan] at hend
    cases hend
  | case3 pos b rest kind n hscan ih =>
    rw [ofText_cons hscan rfl] at hend ht ⊢
    obtain ⟨-, hpos, hle⟩ := TokenKind.scan_append hscan (q := []) (by simp)
    by_cases hlast : (ofText (pos + n) (rest.drop (n - 1))).tokens = []
    · -- The quantifier is the token that is read here.
      have hn : n = rest.length + 1 := by
        have hle' := List.drop_eq_nil_iff.1 (eq_nil_of_tokens_eq_nil hend hlast)
        omega
      subst hn
      rw [cons, hlast] at ht
      cases ht
      obtain ⟨q, rfl, hq⟩ := TokenKind.exists_of_isGreedy hgreedy
      have hmark : ofText pos (b :: (rest ++ ['?'.toUInt8])) =
          cons ⟨TokenKind.lazily q, pos⟩ (ofText (pos + (rest.length + 2)) []) :=
        ofText_cons (TokenKind.scan_mark hscan hq) (by
          rw [List.drop_eq_nil_of_le]
          simp)
      rw [List.cons_append, hmark, ofText_nil, cons, cons, hlast]
      exact ⟨⟨_, rfl⟩, rfl⟩
    · have hlt : n < rest.length + 1 := by
        refine Nat.lt_of_le_of_ne hle ?_
        rintro rfl
        rw [Nat.add_sub_cancel, List.drop_length, ofText_nil] at hlast
        exact hlast rfl
      have hscan' := (TokenKind.scan_append hscan (q := ['?'.toUInt8])
        fun _ h => Nat.ne_of_lt hlt h.2).1
      have hdrop : (rest ++ ['?'.toUInt8]).drop (n - 1) = rest.drop (n - 1) ++ ['?'.toUInt8] :=
        List.drop_append_of_le_length (by omega)
      have ht' : (ofText (pos + n) (rest.drop (n - 1))).tokens.getLast? = some t := by
        rw [cons, List.getLast?_cons, List.getLast?_eq_getLast_of_ne_nil hlast] at ht
        rw [List.getLast?_eq_getLast_of_ne_nil hlast]
        exact ht
      obtain ⟨hend', hkinds⟩ := ih hend ht'
      rw [List.cons_append, ofText_cons hscan' rfl, hdrop]
      exact ⟨hend', congrArg (_ :: ·) hkinds⟩

end Lexemes

/-- The second text is the first with a question mark behind a quantifier that is greedy in the
first.  What comes before the question mark can be read by itself, and the quantifier is the last
token in it. -/
inductive MadeLazy : List UInt8 → List UInt8 → Prop
  | mark {p q : List UInt8} {t : Token} (hp : Lexemes.Readable p)
      (ht : (Lexemes.ofPattern p).tokens.getLast? = some t) (hgreedy : t.kind.isGreedy = true)
      (hq : q.head? ≠ some '?'.toUInt8) : MadeLazy (p ++ q) (p ++ '?'.toUInt8 :: q)

/-- Two patterns of which one becomes the other when some of its quantifiers are made lazy and some
greedy. -/
def EqualButForGreed : List UInt8 → List UInt8 → Prop :=
  Relation.EqvGen MadeLazy

/-- The tokens of two patterns are the same but for greediness, and if one can be read to its end,
so can the other. -/
structure ReadAlike (pattern pattern' : List UInt8) : Prop where
  readable : Lexemes.Readable pattern ↔ Lexemes.Readable pattern'
  outline : (Lexemes.ofPattern pattern).outline = (Lexemes.ofPattern pattern').outline

theorem MadeLazy.readAlike {pattern pattern' : List UInt8} (h : MadeLazy pattern pattern') :
    ReadAlike pattern pattern' := by
  cases h with
  | @mark p q t hp ht hgreedy hq =>
    obtain ⟨length, hp⟩ := hp
    obtain ⟨⟨length', hp'⟩, houtline⟩ := Lexemes.ofText_mark hp ht hgreedy
    have hbehind := (Lexemes.ofText_append hp fun h => absurd h hq).2
    have hbehind' := (Lexemes.ofText_append hp' fun h => absurd h hq).2
    rw [List.append_assoc, List.singleton_append] at hbehind'
    constructor
    · rw [Lexemes.Readable, Lexemes.Readable, Lexemes.ofPattern, Lexemes.ofPattern, hbehind,
        hbehind']
      exact (Lexemes.ending_ok_iff length q).trans (Lexemes.ending_ok_iff length' q).symm
    · rw [Lexemes.ofPattern, Lexemes.ofPattern, hbehind, hbehind', Lexemes.outline_followedBy,
        Lexemes.outline_followedBy, houtline, Lexemes.outline_ofText length,
        Lexemes.outline_ofText length']

/-- **Greediness does not change how the rest of a pattern is read.** -/
theorem EqualButForGreed.readAlike {pattern pattern' : List UInt8}
    (h : EqualButForGreed pattern pattern') : ReadAlike pattern pattern' := by
  induction h with
  | rel _ _ h => exact h.readAlike
  | refl => exact ⟨Iff.rfl, rfl⟩
  | symm _ _ _ ih => exact ⟨ih.readable.symm, ih.outline.symm⟩
  | trans _ _ _ _ _ ih ih' =>
    exact ⟨ih.readable.trans ih'.readable, ih.outline.trans ih'.outline⟩

/-- The kinds of the tokens are the same but for greediness. -/
theorem ReadAlike.kinds {pattern pattern' : List UInt8} (h : ReadAlike pattern pattern') :
    (Lexemes.kinds pattern').map TokenKind.greedily =
      (Lexemes.kinds pattern).map TokenKind.greedily := by
  rw [Lexemes.kinds, Lexemes.kinds, List.map_map, List.map_map]
  exact h.outline.symm

end BoundedRegex
