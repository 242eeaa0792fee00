import BoundedRegex.Code.Instr

/-!
# Listings

Code as text, a line per instruction: the address in five hexadecimal digits, the name, the
operands.  A listing starts with a line feed and ends after the first instruction that accepts.
-/

namespace BoundedRegex

namespace Instr

/-- An address in a listing. -/
def address (addr : Nat) : String :=
  Text.hex 5 addr

/-- The name of a class instruction and its operands, each followed by a blank. -/
def classText (name : String) (negated : Bool) (operands : List String) : String :=
  name ++ " " ++ (if negated then "NEG " else "") ++ String.join (operands.map (· ++ " "))

/-- The bounds of a loop in braces; an unbounded loop has no second number. -/
def boundsText (l : Loop) : String :=
  "\x7b" ++ toString l.min.toNat ++ "," ++
    (if l.max = unboundedCount then "" else toString l.max.toNat) ++ "\x7d"

/-- The name of a loop, which tells its kind. -/
def loopName (l : Loop) : String :=
  (if l.singleByte then "REPEAT_BYTE" else if l.keepsFrames then "REPEAT_KEEP" else "REPEAT") ++
    (if l.greedy then "" else "_NON_GREEDY")

/-- An instruction at an address, without the address. -/
def describe (addr : Nat) : Instr → String
  | accept => "MATCH"
  | anyByte => "ANY_BYTE"
  | byte b => "LIT " ++ Text.hexByte b
  | bitmap negated bits =>
    classText "CLASS_BITMAP" negated
      ((allBytes.filter fun b => bits.getLsbD b.toNat).map Text.hexByte)
  | ranges negated list =>
    classText "CLASS_RANGES" negated
      (list.map fun (lo, hi) => "[" ++ Text.hexByte lo ++ "-" ++ Text.hexByte hi ++ "]")
  | split offset => "SPLIT " ++ address (offsetTarget addr offset)
  | jump offset => "JUMP " ++ address (offsetTarget addr offset)
  | loop l => loopName l ++ " " ++ boundsText l ++ " " ++ address (l.after addr)
  | loopEnd offset => "REPEAT_END " ++ address (offsetTarget addr offset)
  | captureStart index => "CAPTURE_START " ++ toString index.toNat
  | captureEnd index => "CAPTURE_END " ++ toString index.toNat
  | inputStart => "START"
  | inputEnd => "END"

end Instr

/-- The lines for the code that starts at `addr`; code that cannot be decoded ends them. -/
def listingLines (addr : Nat) : List UInt8 → List String
  | [] => []
  | b :: rest =>
    match Instr.decode? (b :: rest) with
    | none => []
    | some (i, n) =>
      let line := Instr.address addr ++ ": " ++ i.describe addr ++ "\n"
      if i = .accept then [line] else line :: listingLines (addr + n) (rest.drop (n - 1))
termination_by code => code.length
decreasing_by simp only [List.length_cons, List.length_drop]; omega

/-- The listing of a code. -/
def listing (code : List UInt8) : String :=
  "\n" ++ String.join (listingLines 0 code)

end BoundedRegex
