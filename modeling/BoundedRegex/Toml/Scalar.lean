import BoundedRegex.Text.Blank
import BoundedRegex.Text.Numeral
import BoundedRegex.Toml.Value

/-!
# Numbers, dates and truth values

`scalar?` tells what a word of a document stands for, if anything: an integer of 64 bits, a float,
a truth value, or a date, a time or both.
-/

namespace BoundedRegex.Toml

/-- Digits of a base with single underscores between them, without the underscores. -/
def plainDigits? (base : Nat) : List Char → Option (List Char)
  | [] => none
  | [c] => if (Text.hexValue? c).any (· < base) then some [c] else none
  | c :: '_' :: rest =>
    if (Text.hexValue? c).any (· < base) then (plainDigits? base rest).map (c :: ·) else none
  | c :: rest =>
    if (Text.hexValue? c).any (· < base) then (plainDigits? base rest).map (c :: ·) else none

/-- The number that digits of a base stand for. -/
def number? (base : Nat) (text : List Char) : Option Nat := do
  Text.digitsValue? base 0 (← plainDigits? base text)

/-- A decimal number without leading zeros. -/
def decimal? (text : List Char) : Option Nat :=
  match text with
  | '0' :: _ :: _ => none
  | _ => number? 10 text

/-- A sign, true for minus, and the rest. -/
def sign : List Char → Bool × List Char
  | '-' :: rest => (true, rest)
  | '+' :: rest => (false, rest)
  | text => (false, text)

/-- The integer that a word stands for. -/
def integer? (word : List Char) : Option Int := do
  let n ← match word with
    | '0' :: 'x' :: digits => (number? 16 digits).map Int.ofNat
    | '0' :: 'o' :: digits => (number? 8 digits).map Int.ofNat
    | '0' :: 'b' :: digits => (number? 2 digits).map Int.ofNat
    | _ =>
      let (negative, digits) := sign word
      (decimal? digits).map fun n => if negative then -Int.ofNat n else Int.ofNat n
  if -0x8000000000000000 ≤ n ∧ n < 0x8000000000000000 then some n else none

/-- The number that a word with a sign stands for, where zeros may lead. -/
def exponent? (word : List Char) : Option Int :=
  let (negative, digits) := sign word
  (number? 10 digits).map fun n => if negative then -Int.ofNat n else Int.ofNat n

/-- A decimal number, as its digits and the power of ten that the last of them counts. -/
structure Decimal where
  negative : Bool
  digits : List Char
  exponent : Int

namespace Decimal

/-- The number of a word with a fraction, an exponent or both. -/
def ofWord? (word : List Char) : Option Decimal := do
  let (negative, text) := sign word
  let isE (c : Char) : Bool := c = 'e' || c = 'E'
  let mantissa := text.takeWhile (! isE ·)
  let hasExponent := mantissa.length < text.length
  let exponent ← if hasExponent then exponent? (text.drop (mantissa.length + 1)) else some 0
  match Text.pieces '.' mantissa with
  | [whole] =>
    if hasExponent ∧ (decimal? whole).isSome then
      some ⟨negative, ← plainDigits? 10 whole, exponent⟩
    else none
  | [whole, fraction] =>
    if (decimal? whole).isSome then
      let fraction ← plainDigits? 10 fraction
      some ⟨negative, (← plainDigits? 10 whole) ++ fraction, exponent - fraction.length⟩
    else none
  | _ => none

/-- The least number that lies nearer to the power of two above the largest float of 64 bits than to
that float. -/
def overflow : Nat := Nat.pow 2 1024 - Nat.pow 2 970

/-- The number of digits of `overflow`. -/
def overflowLength : Nat := 309

/-- Whether the nearest float, whatever the sign, is infinite.  Only numbers whose whole part is as
long as that of `overflow` are computed. -/
def isInfinite (d : Decimal) : Bool :=
  let digits := d.digits.dropWhile (· = '0')
  let length := digits.length + d.exponent
  if digits = [] ∨ length < overflowLength then false
  else if overflowLength < length then true
  else
    let n := (Text.digitsValue? 10 0 digits).getD 0
    overflow * Nat.pow 10 (digits.length - overflowLength) ≤
      n * Nat.pow 10 (overflowLength - digits.length)

end Decimal

/-- Whether a word is a float: an infinity, no number, or a decimal number with a fraction, an
exponent or both.  A positive number may not be so large that its float is infinite. -/
def isFloat (word : List Char) : Bool :=
  let text := (sign word).2
  if text = ['i', 'n', 'f'] ∨ text = ['n', 'a', 'n'] then true
  else (Decimal.ofWord? word).any fun d => d.negative || !d.isInfinite

/-- The number that exactly `n` digits at the start of a text stand for, and the rest. -/
def fixedDigits? (n : Nat) (text : List Char) : Option (Nat × List Char) :=
  let digits := text.take n
  if digits.length = n then (Text.digitsValue? 10 0 digits).map (·, text.drop n) else none

/-- The days of a month. -/
def daysIn (year month : Nat) : Nat :=
  if month = 2 then
    if year % 4 = 0 ∧ (year % 100 ≠ 0 ∨ year % 400 = 0) then 29 else 28
  else if month = 4 ∨ month = 6 ∨ month = 9 ∨ month = 11 then 30
  else 31

/-- The text after a date. -/
def afterDate? (text : List Char) : Option (List Char) := do
  let (year, '-' :: text) ← fixedDigits? 4 text | none
  let (month, '-' :: text) ← fixedDigits? 2 text | none
  let (day, text) ← fixedDigits? 2 text
  if 1 ≤ month ∧ month ≤ 12 ∧ 1 ≤ day ∧ day ≤ daysIn year month then some text else none

/-- The text after a time of day. -/
def afterTime? (text : List Char) : Option (List Char) := do
  let (hour, ':' :: text) ← fixedDigits? 2 text | none
  let (minute, ':' :: text) ← fixedDigits? 2 text | none
  let (second, text) ← fixedDigits? 2 text
  if hour ≤ 23 ∧ minute ≤ 59 ∧ second ≤ 60 then
    match text with
    | '.' :: fraction =>
      let rest := fraction.dropWhile Char.isDigit
      if rest.length < fraction.length then some rest else none
    | _ => some text
  else none

/-- Whether a text is an offset from universal time, or empty. -/
def isOffset (text : List Char) : Bool :=
  match text with
  | [] | ['Z'] | ['z'] => true
  | c :: rest =>
    (c = '+' || c = '-') &&
      match fixedDigits? 2 rest with
      | some (hour, ':' :: rest) =>
        match fixedDigits? 2 rest with
        | some (minute, []) => hour ≤ 23 && minute ≤ 59
        | _ => false
      | _ => false

/-- Whether a word is a date, a time, or a date with a time and perhaps an offset. -/
def isDatetime (word : List Char) : Bool :=
  match afterDate? word with
  | some [] => true
  | some (c :: rest) =>
    (c = 'T' || c = 't' || c = ' ') && (afterTime? rest).any isOffset
  | none => (afterTime? word).any (· = [])

/-- What a word stands for. -/
def scalar? (word : List Char) : Option Value :=
  if word = "true".toList then some (.boolean true)
  else if word = "false".toList then some (.boolean false)
  else
    match integer? word with
    | some n => some (.integer n)
    | none =>
      if isFloat word then some (.float (String.ofList word))
      else if isDatetime word then some (.datetime (String.ofList word))
      else none

end BoundedRegex.Toml
