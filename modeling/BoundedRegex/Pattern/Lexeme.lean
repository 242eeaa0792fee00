import BoundedRegex.Pattern.Token

/-!
# A pattern as a list of tokens

`Lexemes.ofPattern` reads tokens up to the end of a pattern, or up to the first that is malformed.
Tokens do not depend on how they are parsed, so a parser that takes them one at a time meets the
error at the same point as one that reads the pattern itself.
-/

namespace BoundedRegex

/-- The tokens of a pattern, and how they end: at the pattern's end, which is at an offset, or
with an error. -/
structure Lexemes where
  tokens : List Token
  ending : Except SyntaxError Nat

namespace Lexemes

/-- Puts a token in front. -/
def cons (t : Token) (ls : Lexemes) : Lexemes :=
  { ls with tokens := t :: ls.tokens }

/-- The tokens of a text whose first byte is at offset `pos`. -/
def ofText (pos : Nat) : List UInt8 → Lexemes
  | [] => ⟨[], .ok pos⟩
  | b :: rest =>
    match TokenKind.scan b rest with
    | .error e => ⟨[], .error (e.shift pos)⟩
    | .ok (kind, n) => cons ⟨kind, pos⟩ (ofText (pos + n) (rest.drop (n - 1)))
termination_by text => text.length
decreasing_by simp only [List.length_cons, List.length_drop]; omega

/-- The tokens of a pattern. -/
def ofPattern (pattern : List UInt8) : Lexemes :=
  ofText 0 pattern

end Lexemes

end BoundedRegex
