import BoundedRegex.Toml.Scalar

/-!
# Reading TOML

`document?` reads a document of version 1.0 and gives its root table, or nothing if the document is
not valid.  The readers of parts take a text and give what they have read with the rest; those that
may read parts of their own kind inside take the number of steps that they may still make, which
the length of the document bounds.
-/

namespace BoundedRegex.Toml

/-- A reader of a part of a document. -/
abbrev Reader (α : Type) := List Char → Option (α × List Char)

/-- Whether a character may not stand in a document as it is. -/
def isControl (c : Char) : Bool :=
  (c.toNat < 0x20 && c ≠ '\t') || c.toNat = 0x7f

/-- Text after spaces and tabs. -/
def skipBlanks (text : List Char) : List Char :=
  text.dropWhile fun c => c = ' ' || c = '\t'

/-- Text after a comment, if it starts with one, up to the line's end. -/
def skipComment? : List Char → Option (List Char)
  | '#' :: rest =>
    let after := rest.dropWhile (!isControl ·)
    match after with
    | [] | '\n' :: _ | '\r' :: '\n' :: _ => some after
    | _ => none
  | text => some text

/-- Text after the end of a line, or none at the end of the document. -/
def newline? : List Char → Option (List Char)
  | '\n' :: rest => some rest
  | '\r' :: '\n' :: rest => some rest
  | _ => none

/-- Text after spaces, line ends and comments. -/
def skipSpace? : Nat → List Char → Option (List Char)
  | 0, _ => none
  | steps + 1, text => do
    let text ← skipComment? (skipBlanks text)
    match newline? text with
    | some rest => skipSpace? steps rest
    | none => some text

/-! ### Strings -/

/-- The character with a code, if there is one. -/
def charOfCode? (code : Nat) : Option Char :=
  if code.isValidChar then some (Char.ofNat code) else none

/-- The character with a code of exactly `n` hexadecimal digits. -/
def unicode? (n : Nat) : Reader Char := fun text => do
  let digits := text.take n
  if digits.length = n then
    let code ← Text.digitsValue? 16 0 digits
    let c ← charOfCode? code
    some (c, text.drop n)
  else none

/-- The character that an escape stands for, after the backslash. -/
def escaped? : Reader Char
  | 'b' :: rest => some (Char.ofNat 0x08, rest)
  | 't' :: rest => some ('\t', rest)
  | 'n' :: rest => some ('\n', rest)
  | 'f' :: rest => some (Char.ofNat 0x0c, rest)
  | 'r' :: rest => some ('\r', rest)
  | '"' :: rest => some ('"', rest)
  | '\\' :: rest => some ('\\', rest)
  | 'u' :: rest => unicode? 4 rest
  | 'U' :: rest => unicode? 8 rest
  | _ => none

/-- Puts a character in front of what a reader has read. -/
def prepend (c : Char) : List Char × List Char → List Char × List Char
  | (read, rest) => (c :: read, rest)

/-- The inside of a string in double quotes, up to the quote. -/
def basic? : Nat → Reader (List Char)
  | 0, _ => none
  | _, [] => none
  | steps + 1, c :: rest =>
    if c = '"' then some ([], rest)
    else if c = '\\' then do
      let (c, rest) ← escaped? rest
      (basic? steps rest).map (prepend c)
    else if isControl c then none
    else (basic? steps rest).map (prepend c)

/-- The apostrophe. -/
def apostrophe : Char := Char.ofNat 0x27

/-- The inside of a string in single quotes, up to the quote. -/
def literal? : Reader (List Char)
  | [] => none
  | c :: rest =>
    if c = apostrophe then some ([], rest)
    else if isControl c then none
    else (literal? rest).map (prepend c)

/-- Text after spaces, tabs and line ends. -/
def skipLines : List Char → List Char
  | ' ' :: rest | '\t' :: rest | '\n' :: rest | '\r' :: '\n' :: rest => skipLines rest
  | text => text

/-- Text after the space that a backslash at the end of a line takes away. -/
def continued? (text : List Char) : Option (List Char) :=
  (newline? (skipBlanks text)).map skipLines

/-- The inside of a string of several lines in three quotes `q`, up to the quotes; two more quotes
before them belong to the string.  Escapes count if `escapes` holds. -/
def lines? (q : Char) (escapes : Bool) : Nat → Reader (List Char)
  | 0, _ => none
  | _, [] => none
  | steps + 1, c :: rest =>
    if [q, q, q].isPrefixOf (c :: rest) then
      let extra := ((rest.drop 2).take 2).takeWhile (· = q)
      some (extra, rest.drop (2 + extra.length))
    else if c = '\\' ∧ escapes then
      match continued? rest with
      | some rest => lines? q escapes steps rest
      | none => do
        let (c, rest) ← escaped? rest
        (lines? q escapes steps rest).map (prepend c)
    else
      match newline? (c :: rest) with
      | some rest => (lines? q escapes steps rest).map (prepend '\n')
      | none =>
        if isControl c then none else (lines? q escapes steps rest).map (prepend c)

/-- A string of one line, in either kind of quotes. -/
def quotedKey? : Reader (List Char)
  | [] => none
  | c :: rest =>
    if c = '"' then basic? (rest.length + 1) rest
    else if c = apostrophe then literal? rest
    else none

/-- A string of any kind. -/
def string? (text : List Char) : Option (List Char × List Char) :=
  let several (q : Char) (escapes : Bool) : Option (List Char × List Char) :=
    let inside := text.drop 3
    lines? q escapes (inside.length + 1) ((newline? inside).getD inside)
  if ['"', '"', '"'].isPrefixOf text then several '"' true
  else if [apostrophe, apostrophe, apostrophe].isPrefixOf text then several apostrophe false
  else quotedKey? text

/-! ### Keys -/

/-- Whether a character may stand in a key without quotes. -/
def isBare (c : Char) : Bool :=
  c.isAlphanum || c = '_' || c = '-'

/-- A key without dots. -/
def simpleKey? (text : List Char) : Option (String × List Char) :=
  match text.takeWhile isBare with
  | [] => (quotedKey? text).map fun (key, rest) => (String.ofList key, rest)
  | key => some (String.ofList key, text.dropWhile isBare)

/-- The parts of a dotted key that has at most so many. -/
def keyUpTo? : Nat → Reader (List String)
  | 0, _ => none
  | parts + 1, text => do
    let (key, rest) ← simpleKey? (skipBlanks text)
    match skipBlanks rest with
    | '.' :: rest => do
      let (path, rest) ← keyUpTo? parts rest
      some (key :: path, rest)
    | rest => some ([key], rest)

/-- How many parts a key may have, and how many brackets may be open inside one another. -/
def maxDepth : Nat := 79

/-- The parts of a dotted key. -/
def key? : Reader (List String) :=
  keyUpTo? maxDepth

/-! ### Values -/

/-- Whether a character may stand in a number, a date or a truth value. -/
def isWordChar (c : Char) : Bool :=
  c.isAlphanum || c = '+' || c = '-' || c = '_' || c = '.' || c = ':'

/-- A number, a date or a truth value.  A date and a time of day may have a space between them. -/
def word? (text : List Char) : Option (Value × List Char) :=
  let word := text.takeWhile isWordChar
  let rest := text.dropWhile isWordChar
  let joined : Option (Value × List Char) :=
    match rest with
    | ' ' :: c :: more =>
      if c.isDigit ∧ afterDate? word = some [] then
        (scalar? (word ++ ' ' :: (c :: more).takeWhile isWordChar)).map
          (·, (c :: more).dropWhile isWordChar)
      else none
    | _ => none
  match joined with
  | some found => some found
  | none => (scalar? word).map (·, rest)

mutual

/-- A value of any kind, with at most `depth` brackets inside one another. -/
def value? (depth : Nat) : Nat → Reader Value
  | 0, _ => none
  | steps + 1, text =>
    match text with
    | [] => none
    | c :: rest =>
      if c = '"' ∨ c = apostrophe then
        (string? text).map fun (s, rest) => (.string (String.ofList s), rest)
      else if c = '[' ∨ c = '\x7b' then
        match depth with
        | 0 => none
        | depth + 1 =>
          if c = '[' then (items? depth steps rest).map fun (vs, rest) => (.array vs, rest)
          else
            match skipBlanks rest with
            | '\x7d' :: rest => some (.table [], rest)
            | rest =>
              (pairs? depth steps [] rest).map fun (es, rest) => (.table (entriesToValue es), rest)
      else word? text

/-- The items of an array, up to the bracket. -/
def items? (depth : Nat) : Nat → Reader (List Value)
  | 0, _ => none
  | steps + 1, text => do
    match ← skipSpace? (text.length + 1) text with
    | ']' :: rest => some ([], rest)
    | text =>
      let (v, rest) ← value? depth steps text
      match ← skipSpace? (rest.length + 1) rest with
      | ',' :: rest => (items? depth steps rest).map fun (vs, rest) => (v :: vs, rest)
      | ']' :: rest => some ([v], rest)
      | _ => none

/-- The entries of a table in braces, up to the brace, added to those read so far. -/
def pairs? (depth : Nat) : Nat → Entries → Reader Entries
  | 0, _, _ => none
  | steps + 1, entries, text => do
    let (path, rest) ← key? text
    match rest with
    | '=' :: rest => do
      let (v, rest) ← value? depth steps (skipBlanks rest)
      let entries ← entries.add v path
      match skipBlanks rest with
      | ',' :: rest => pairs? depth steps entries rest
      | '\x7d' :: rest => some (entries, rest)
      | _ => none
    | _ => none

end

/-! ### Documents -/

/-- A document that is being read: its root, and the table to which keys are added. -/
structure Draft where
  root : Entries := []
  current : List String := []

/-- Opens the table, or the table of an array, that a header names. -/
def Draft.enter (d : Draft) (path : List String) (isArray : Bool) : Option Draft := do
  let key ← path.getLast?
  let opened := if isArray then Entries.openTables key else Entries.openTable key
  let root ← d.root.within opened path.dropLast
  some { root, current := path }

/-- Adds a value to the current table. -/
def Draft.add (d : Draft) (path : List String) (v : Value) : Option Draft := do
  let root ← d.root.within (Entries.add v path) d.current
  some { d with root }

/-- Reads what stands on a line: a header, a key with its value, or nothing. -/
def line? (d : Draft) (text : List Char) : Option (Draft × List Char) :=
  match skipBlanks text with
  | '[' :: '[' :: rest => do
    let (path, ']' :: ']' :: rest) ← key? rest | none
    some (← d.enter path true, rest)
  | '[' :: rest => do
    let (path, ']' :: rest) ← key? rest | none
    some (← d.enter path false, rest)
  | [] => some (d, [])
  | c :: rest =>
    if c = '#' ∨ c = '\n' ∨ c = '\r' then some (d, c :: rest)
    else do
      let (path, '=' :: rest) ← key? (c :: rest) | none
      let (v, rest) ← value? maxDepth (rest.length + 1) (skipBlanks rest)
      some (← d.add path v, rest)

/-- Reads the lines of a document. -/
def linesOf? : Nat → Draft → List Char → Option Draft
  | 0, _, _ => none
  | steps + 1, d, text => do
    let (d, rest) ← line? d text
    match ← skipComment? (skipBlanks rest) with
    | [] => some d
    | rest => linesOf? steps d (← newline? rest)

/-- The root table of a document; a byte order mark may stand in front. -/
def document? (text : String) : Option (List (String × Value)) :=
  let text := match text.toList with
    | c :: rest => if c.toNat = 0xfeff then rest else c :: rest
    | [] => []
  (linesOf? (text.length + 1) {} text).map fun d => entriesToValue d.root

end BoundedRegex.Toml
