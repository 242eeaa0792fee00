import BoundedRegex.ByteSet.Named
import BoundedRegex.Pattern.SyntaxError

/-!
# Tokens of a pattern

`TokenKind.scan` reads the token at the start of a text: escapes, bracketed sets and repetition
counts are resolved here, so that a parser meets only bytes, sets, anchors, brackets and
quantifiers.  Offsets in this module, also those of errors, count from the token's first byte.
-/

namespace BoundedRegex

/-- The upper bound of a repetition that has none; it cannot be written as a count. -/
def unboundedCount : UInt8 := 255

/-- How often an operand may be repeated, and whether more or fewer times are tried first. -/
structure Quantifier where
  min : UInt8
  max : UInt8
  greedy : Bool
deriving DecidableEq

/-- A token, but for its place. -/
inductive TokenKind where
  | byte (b : UInt8)
  | set (s : ByteSet)
  | anyByte
  | inputStart
  | inputEnd
  | groupOpen
  | groupClose
  | captureOpen
  | captureClose
  | alternation
  | quantifier (q : Quantifier)
deriving DecidableEq

/-- A token and the offset of its first byte. -/
structure Token where
  kind : TokenKind
  position : Nat
deriving DecidableEq

/-- A byte, or a class that stands for several. -/
inductive SetItem where
  | byte (b : UInt8)
  | named (c : NamedClass) (negated : Bool)
deriving DecidableEq

/-- Adds what an item stands for. -/
def ByteSet.insertItem (s : ByteSet) : SetItem → ByteSet
  | .byte b => s.insert b
  | .named c negated => s.insertClass c negated

/-- The bytes with a meaning of their own, the backslash apart. -/
def metacharacters : List Char :=
  ['.', '[', ']', '(', ')', '<', '>', '|', '?', '*', '+', '\x7b', '\x7d', '^', '$', '-']

namespace TokenKind

/-! ### Escapes -/

/-- The escape after a backslash, and its length without the backslash. -/
def escape? : List UInt8 → Option (SetItem × Nat)
  | [] => none
  | b :: rest =>
    match Char.ofUInt8 b with
    | 'd' => some (.named .digit false, 1)
    | 'D' => some (.named .digit true, 1)
    | 'w' => some (.named .alphanumeric false, 1)
    | 'W' => some (.named .alphanumeric true, 1)
    | 'l' => some (.named .lowercase false, 1)
    | 'a' => some (.named .letter false, 1)
    | 's' => some (.named .whitespace false, 1)
    | 'S' => some (.named .whitespace true, 1)
    | 'N' => some (.named .lineBreak false, 1)
    | 'i' => some (.named .identifierStart false, 1)
    | 'c' => some (.named .identifierPart false, 1)
    | 'f' => some (.byte 0x0c, 1)
    | 'r' => some (.byte 0x0d, 1)
    | 'n' => some (.byte 0x0a, 1)
    | 't' => some (.byte 0x09, 1)
    | 'x' =>
      match rest with
      | hi :: lo :: _ => do
        let high ← Text.hexValue? (Char.ofUInt8 hi)
        let low ← Text.hexValue? (Char.ofUInt8 lo)
        some (.byte (UInt8.ofNat (16 * high + low)), 3)
      | _ => none
    | c => if c = '\\' ∨ c ∈ metacharacters then some (.byte b, 1) else none

/-- The item that starts with `b`, and how many bytes after `b` belong to it. -/
def item? (b : UInt8) (rest : List UInt8) : Option (SetItem × Nat) :=
  if b = '\\'.toUInt8 then escape? rest else some (.byte b, 0)

/-! ### Bracketed sets -/

/-- Reads members up to the closing bracket, and gives the set and the offset after the bracket.
The text starts at offset `pos`, and `first` tells that no member has been read, when a closing
bracket is an ordinary byte.  A `-` after an item makes a range unless a closing bracket or the
end of the pattern follows it. -/
def members (pos : Nat) (first : Bool) (acc : ByteSet) : List UInt8 → Except SyntaxError (ByteSet × Nat)
  | [] => .error ⟨.unterminatedSet, 0⟩
  | b :: rest =>
    if b = ']'.toUInt8 ∧ !first then .ok (acc, pos + 1)
    else
      match item? b rest with
      | none => .error ⟨.unknownEscape, pos⟩
      | some (lo, n) =>
        match h : rest.drop n with
        | dash :: c :: more =>
          if dash = '-'.toUInt8 ∧ c ≠ ']'.toUInt8 then
            match item? c more with
            | none => .error ⟨.unknownEscape, pos + n + 2⟩
            | some (hi, m) =>
              match lo, hi with
              | .byte lo, .byte hi =>
                if lo ≤ hi then members (pos + n + m + 3) false (acc.insertRange lo hi) (more.drop m)
                else .error ⟨.malformedRange, pos⟩
              | _, _ => .error ⟨.malformedRange, pos⟩
          else members (pos + n + 1) false (acc.insertItem lo) (dash :: c :: more)
        | tail => members (pos + n + 1) false (acc.insertItem lo) tail
termination_by text => text.length
decreasing_by
  all_goals
    have hle : (rest.drop n).length ≤ rest.length := by simp
    simp_all only [List.length_cons, List.length_drop]
    omega

/-- The set after an opening bracket, and the length of the whole token. -/
def bracketed : List UInt8 → Except SyntaxError (ByteSet × Nat)
  | b :: rest =>
    if b = '^'.toUInt8 then members 2 true ByteSet.empty.invert rest
    else members 1 true ByteSet.empty (b :: rest)
  | [] => .error ⟨.unterminatedSet, 0⟩

/-! ### Quantifiers -/

/-- White space as braces refuse it: space, tab, line feed, form feed and carriage return. -/
def isAsciiBlank (b : UInt8) : Bool :=
  b = 0x20 || b = 0x09 || b = 0x0a || b = 0x0c || b = 0x0d

/-- A count: decimal digits, at least one, with a value of at most 255. -/
def count? (digits : List UInt8) : Option UInt8 :=
  if digits ≠ [] ∧ digits.all (fun b => (Char.ofUInt8 b).isDigit) then
    let value := digits.foldl (fun n b => 10 * n + (b.toNat - '0'.toNat)) 0
    if value ≤ 255 then some (UInt8.ofNat value) else none
  else none

/-- The bounds that the text between braces stands for: `n`, `m,` or `m,M`. -/
def bounds? (body : List UInt8) : Option (UInt8 × UInt8) :=
  match body.span (· ≠ ','.toUInt8) with
  | (digits, []) => do
    let n ← count? digits
    if 1 ≤ n ∧ n < unboundedCount then some (n, n) else none
  | (digits, [_]) => do
    let m ← count? digits
    if m = unboundedCount then none else some (m, unboundedCount)
  | (digits, _ :: more) => do
    let m ← count? digits
    let n ← count? more
    if m < n ∨ (0 < m ∧ m ≤ n ∧ n < unboundedCount) then some (m, n) else none

/-- The bounds after an opening brace, and the length of both braces and what they hold. -/
def braces (rest : List UInt8) : Except SyntaxError (UInt8 × UInt8 × Nat) :=
  let body := rest.takeWhile (· ≠ '\x7d'.toUInt8)
  if body.length = rest.length then .error ⟨.invalidCount, 0⟩
  else
    match body.findIdx? isAsciiBlank with
    | some i => .error ⟨.whitespaceInBraces, i + 1⟩
    | none =>
      match bounds? body with
      | some (m, n) => .ok (m, n, body.length + 2)
      | none => .error ⟨.invalidCount, 0⟩

/-- A quantifier whose counts end the first `n` bytes, given what follows them: a question mark
there belongs to the token, and asks for as few repetitions as possible. -/
def quantified (min max : UInt8) (n : Nat) (rest : List UInt8) : TokenKind × Nat :=
  if rest.head? = some '?'.toUInt8 then (.quantifier ⟨min, max, false⟩, n + 1)
  else (.quantifier ⟨min, max, true⟩, n)

/-! ### Any token -/

/-- The token that starts with `b`, and its length. -/
def scan (b : UInt8) (rest : List UInt8) : Except SyntaxError (TokenKind × Nat) :=
  match Char.ofUInt8 b with
  | '.' => .ok (.anyByte, 1)
  | '^' => .ok (.inputStart, 1)
  | '$' => .ok (.inputEnd, 1)
  | '(' => .ok (.groupOpen, 1)
  | ')' => .ok (.groupClose, 1)
  | '<' => .ok (.captureOpen, 1)
  | '>' => .ok (.captureClose, 1)
  | '|' => .ok (.alternation, 1)
  | ']' => .error ⟨.unbalancedBracket, 0⟩
  | '\x7d' => .error ⟨.unbalancedBracket, 0⟩
  | '?' => .ok (quantified 0 1 1 rest)
  | '*' => .ok (quantified 0 unboundedCount 1 rest)
  | '+' => .ok (quantified 1 unboundedCount 1 rest)
  | '\x7b' =>
    match braces rest with
    | .ok (min, max, n) => .ok (quantified min max n (rest.drop (n - 1)))
    | .error e => .error e
  | '[' =>
    match bracketed rest with
    | .ok (s, n) => .ok (.set s, n)
    | .error e => .error e
  | '\\' =>
    match escape? rest with
    | some (.byte c, n) => .ok (.byte c, n + 1)
    | some (.named c negated, n) => .ok (.set (ByteSet.empty.insertClass c negated), n + 1)
    | none => .error ⟨.unknownEscape, 0⟩
  | _ => .ok (.byte b, 1)

end TokenKind

end BoundedRegex
