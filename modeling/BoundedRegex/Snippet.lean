import BoundedRegex.Regex.Load
import BoundedRegex.Text.Numeral
import BoundedRegex.Text.Quoted

/-!
# Compiled patterns in source code

A compiled pattern can be embedded in a program as the declaration of an array of bytes, with
comments that tell the pattern and the sizes of the buffers it needs.  `Snippet.render` writes such
a declaration, and `Snippet.read` finds the array of a name in a source text and gives its bytes,
if they are those of a compiled pattern.
-/

namespace BoundedRegex.Snippet

/-- Whether a character can start an identifier. -/
def startsIdentifier (c : Char) : Bool :=
  c.isAlpha || c = '_'

/-- Whether a name is an identifier: letters, digits and underscores, with no digit in front, and
more than an underscore alone. -/
def isIdentifier (name : String) : Bool :=
  match name.toList with
  | c :: rest =>
    startsIdentifier c && (c ≠ '_' || rest ≠ []) &&
      rest.all fun c => startsIdentifier c || c.isDigit
  | [] => false

/-! ### Writing -/

/-- The bytes on a line of the array. -/
def bytesPerLine : Nat := 12

/-- The lines of the array. -/
def arrayLines : List UInt8 → List String
  | [] => []
  | b :: rest =>
    let line := (b :: rest).take bytesPerLine
    ("   " ++ String.join (line.map fun b => " " ++ Text.hexByte b ++ ",") ++ "\n") ::
      arrayLines (rest.drop (bytesPerLine - 1))
termination_by bytes => bytes.length
decreasing_by simp only [List.length_cons, List.length_drop]; omega

/-- The comments above a declaration. -/
def comments (quoting : Text.Quoting) (r : Regex) (pattern : Option (List UInt8)) : String :=
  (match pattern with
    | some p => "// Pattern: " ++ quoting.quote p ++ "\n"
    | none => "") ++
    "// Scratch depth: " ++ toString r.scratchDepth.toNat ++ "\n" ++
    "// Captures: " ++ toString r.captures.toNat ++ " (" ++ toString r.loopCaptures.length ++
    " inside loops)\n"

/-- The declaration of a compiled pattern under a name, with the pattern in a comment if it is
given, where it is quoted in a way that is given too.  The name must be an identifier. -/
def renderWith (quoting : Text.Quoting) (r : Regex) (name : String)
    (pattern : Option (List UInt8)) : Except LoadError String :=
  if isIdentifier name then
    let bytes := r.toBytes
    .ok (comments quoting r pattern ++ "pub static " ++ name ++ ": [u8; " ++
      toString bytes.length ++ "] = [\n" ++ String.join (arrayLines bytes) ++ "];\n")
  else .error .invalidSnippet

/-- The declaration of a compiled pattern, with the pattern quoted by `Text.quoted`. -/
def render : Regex → String → Option (List UInt8) → Except LoadError String :=
  renderWith Text.quoting

/-! ### Reading -/

/-- What follows the colon in the declaration of a name; `needle` is the text that introduces it.
A longer name that starts with this one is passed over, since no colon follows. -/
def declaration? (needle : List Char) (text : List Char) : Option (List Char) :=
  match Text.after? needle text with
  | none => none
  | some rest =>
    match Text.trimStart rest with
    | ':' :: found => some found
    | _ => if rest.length < text.length then declaration? needle rest else none
termination_by text.length

/-- The length in the type of an array of bytes. -/
def arrayLength? (type : List Char) : Option Nat :=
  match Text.trim type with
  | '[' :: rest =>
    match rest.getLast? with
    | some ']' => do
      let (element, length) ← Text.splitOnce? ';' rest.dropLast
      if Text.trim element = ['u', '8'] then Text.size? (Text.trim length) else none
    | _ => none
  | _ => none

/-- A byte in decimal, or in hexadecimal after `0x` or `0X`. -/
def byte? (item : List Char) : Option UInt8 :=
  (match item with
    | '0' :: 'x' :: digits => Text.numeral? 16 255 digits
    | '0' :: 'X' :: digits => Text.numeral? 16 255 digits
    | _ => Text.numeral? 10 255 item).map UInt8.ofNat

/-- The bytes between the brackets of an array: items between commas, of which empty ones do not
count. -/
def arrayBytes? (text : List Char) : Option (List UInt8) :=
  match Text.trimStart text with
  | '[' :: rest => do
    let (body, _) ← Text.splitOnce? ']' rest
    let items := (Text.pieces ',' body).map Text.trim
    (items.filter (· ≠ [])).mapM byte?
  | _ => none

/-- The bytes of the array of a name: those of the first declaration of it, when they are as many
as its type tells. -/
def declared? (text name : String) : Option (List UInt8) := do
  let found ← declaration? ("static " ++ name).toList text.toList
  let (type, value) ← Text.splitOnce? '=' found
  let length ← arrayLength? type
  let bytes ← arrayBytes? value
  if bytes.length = length then some bytes else none

/-- The bytes of the compiled pattern that a source text declares under a name. -/
def read (text name : String) : Except LoadError (List UInt8) :=
  match declared? text name with
  | none => .error .invalidSnippet
  | some bytes => (Regex.ofBytes bytes).map fun _ => bytes

end BoundedRegex.Snippet
