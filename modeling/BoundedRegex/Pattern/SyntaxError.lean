/-!
# Errors in patterns

What can be wrong with a pattern, and where.  `message` gives the wording shown to a user.
-/

namespace BoundedRegex

/-- What is wrong with a pattern. -/
inductive SyntaxError.Kind where
  /-- A group that is never closed. -/
  | unterminatedGroup
  /-- A bracketed set that is never closed. -/
  | unterminatedSet
  /-- A closing bracket without an opening one. -/
  | unbalancedBracket
  /-- A quantifier without an operand, or after another quantifier. -/
  | nothingToRepeat
  /-- An empty pattern, group or alternative. -/
  | emptyExpression
  /-- Repetition counts that are malformed or out of range. -/
  | invalidCount
  /-- White space between the braces of a repetition count. -/
  | whitespaceInBraces
  /-- A backslash followed by something that is no escape. -/
  | unknownEscape
  /-- A range whose ends are out of order, or not single bytes. -/
  | malformedRange
  /-- A quantifier on an expression that can match the empty string. -/
  | unboundedEmptyRepetition
  /-- A capture closed as a plain group, or the other way round. -/
  | mismatchedCaptureGroup
  /-- Groups nested beyond the limit. -/
  | nestingTooDeep
  /-- More than 255 captures. -/
  | tooManyCaptures
  /-- Code that does not fit. -/
  | tooLarge
deriving DecidableEq

/-- The wording of a kind of error. -/
def SyntaxError.Kind.message : SyntaxError.Kind → String
  | unterminatedGroup => "unterminated group"
  | unterminatedSet => "unterminated character set"
  | unbalancedBracket => "unbalanced bracket"
  | nothingToRepeat => "nothing to repeat"
  | emptyExpression => "empty expression"
  | invalidCount => "invalid repetition count"
  | whitespaceInBraces => "whitespace inside braces"
  | unknownEscape => "unknown escape sequence"
  | malformedRange => "malformed range"
  | unboundedEmptyRepetition => "repetition of an expression that can be empty"
  | mismatchedCaptureGroup => "mismatched capture group"
  | nestingTooDeep => "groups nested too deeply"
  | tooManyCaptures => "too many capture groups"
  | tooLarge => "pattern too large"

/-- An error at an offset of the pattern. -/
structure SyntaxError where
  kind : SyntaxError.Kind
  position : Nat
deriving DecidableEq

namespace SyntaxError

/-- The error, for a pattern with `n` bytes more in front. -/
def shift (e : SyntaxError) (n : Nat) : SyntaxError :=
  { e with position := n + e.position }

/-- The wording of an error. -/
def message (e : SyntaxError) : String :=
  e.kind.message ++ " at offset " ++ toString e.position

end SyntaxError

end BoundedRegex
