import BoundedRegex.Code.Buffer
import BoundedRegex.Compile.Footprint
import BoundedRegex.Pattern.Lexeme

/-!
# Compiling token by token

Code is written while the tokens come in, with no tree in between.  `Emission.feed` does what one
token asks for, and `Emission.finish` what the end of the pattern does.  Code for an expression is
written before it is known whether the expression is repeated, or is an alternative that others
follow; the loop or split is then inserted in front of it.

A `Level` is the inside of a bracket, or of the whole pattern: alternatives, of which the last is
still open, and in it atoms, of which the last may yet get a quantifier.
-/

namespace BoundedRegex

/-- An element that has no quantifier so far. -/
structure Operand where
  /-- Where its code starts. -/
  start : Nat
  /-- The first capture inside it, if it holds any. -/
  firstCapture : Nat
  footprint : Footprint

/-- The inside of a bracket, as far as it has been read. -/
structure Level where
  /-- Where the code of the open alternative starts. -/
  start : Nat
  /-- The finished alternatives. -/
  alternatives : Option Footprint := none
  /-- The jump at the end of the last finished alternative. -/
  lastJump : Option Nat := none
  /-- The finished atoms of the open alternative. -/
  atoms : Option Footprint := none
  operand : Option Operand := none

namespace Level

/-- The open alternative, with all its atoms; `none` if it has none. -/
def sequence (l : Level) : Option Footprint :=
  match l.atoms, l.operand with
  | some f, some o => some (f.andThen o.footprint)
  | none, some o => some o.footprint
  | atoms, none => atoms

/-- Adds an element after the atoms. -/
def place (l : Level) (o : Operand) : Level :=
  { l with atoms := l.sequence, operand := some o }

/-- Adds an alternative to the finished ones. -/
def addAlternative (l : Level) (f : Footprint) : Footprint :=
  match l.alternatives with
  | some g => g.or f
  | none => f

end Level

/-- A bracket that has not been closed. -/
structure Opening where
  position : Nat
  /-- The index of the capture, for a bracket that captures. -/
  capture : Option UInt8
  /-- Where the code of the group starts. -/
  start : Nat
  /-- The first capture inside the group, itself included. -/
  firstCapture : Nat
  /-- What had been read around it. -/
  around : Level

/-- A compilation under way. -/
structure Emission where
  buffer : CodeBuffer
  /-- The captures so far. -/
  captures : Nat := 0
  /-- Bit `i` is set when capture `i` is inside a loop that can iterate more than once. -/
  loopBound : BitVec 256 := 0
  level : Level := { start := 0 }
  /-- The brackets around the level, the innermost first. -/
  openings : List Opening := []

namespace Emission

/-- Changes the code as `f` does; the error, if that gives nothing, is that the code does not fit. -/
def write (e : Emission) (position : Nat) (f : CodeBuffer → Option CodeBuffer) :
    Except SyntaxError Emission :=
  match e with
  | { buffer, captures, loopBound, level, openings } =>
    match f buffer with
    | some buffer => .ok { buffer, captures, loopBound, level, openings }
    | none => .error ⟨.tooLarge, position⟩

/-- Writes an element that is a single instruction. -/
def element (e : Emission) (position : Nat) (i : Instr) (f : Footprint) :
    Except SyntaxError Emission :=
  { e with level := e.level.place ⟨e.buffer.location, e.captures, f⟩ }.write position (·.emit i)

/-- Repeats the operand. -/
def quantify (e : Emission) (position : Nat) (q : Quantifier) : Except SyntaxError Emission :=
  match e.level.operand with
  | none => .error ⟨.nothingToRepeat, position⟩
  | some o =>
    if o.footprint.nullable then .error ⟨.unboundedEmptyRepetition, position⟩
    else do
      let inside := bitSpan o.firstCapture (e.captures - o.firstCapture)
      let repeated : Operand := { o with footprint := o.footprint.repeated q }
      let e ← e.write position
        (·.makeLoop o.start q o.footprint.singleByte (o.footprint.needsFrames q.max))
      return { e with
        loopBound := if 1 < q.max then e.loopBound ||| inside else e.loopBound
        level :=
          { e.level with
            atoms := { e.level with operand := some repeated }.sequence
            operand := none } }

/-- Enters a bracket, at most `limit` deep. -/
def enter (limit : Nat) (e : Emission) (position : Nat) (capturing : Bool) :
    Except SyntaxError Emission :=
  if limit ≤ e.openings.length then .error ⟨.nestingTooDeep, position⟩
  else
    let opening (capture : Option UInt8) : Opening :=
      { position, capture, start := e.buffer.location, firstCapture := e.captures
        around := e.level }
    if capturing then
      if e.captures < 255 then do
        let index := UInt8.ofNat e.captures
        let opened : Emission := { e with
          captures := e.captures + 1
          openings := opening (some index) :: e.openings }
        let e ← opened.write position (·.emit (.captureStart index))
        return { e with level := { start := e.buffer.location } }
      else .error ⟨.tooManyCaptures, position⟩
    else
      .ok { e with
        level := { start := e.buffer.location }
        openings := opening none :: e.openings }

/-- Completes the alternatives of the level: pending jumps go to the end of the code. -/
def closeLevel (e : Emission) (position : Nat) : Except SyntaxError (Footprint × Emission) :=
  match e.level.sequence with
  | none => .error ⟨.emptyExpression, position⟩
  | some f =>
    .ok (e.level.addAlternative f,
      match e.level.lastJump with
      | some last => { e with buffer := e.buffer.patchJumps last e.buffer.location }
      | none => e)

/-- Leaves a bracket. -/
def leave (e : Emission) (position : Nat) (capturing : Bool) : Except SyntaxError Emission :=
  match e.openings with
  | [] => .error ⟨.unbalancedBracket, position⟩
  | o :: outer => do
    let (f, e) ← e.closeLevel position
    let placed (f : Footprint) : Emission :=
      { e with level := o.around.place ⟨o.start, o.firstCapture, f⟩, openings := outer }
    match o.capture, capturing with
    | none, false => return placed f
    | some index, true => (placed f.captured).write position (·.emit (.captureEnd index))
    | _, _ => throw ⟨.mismatchedCaptureGroup, position⟩

/-- Ends an alternative that another one follows: a split goes in front of it, and a jump behind
it. -/
def alternate (e : Emission) (position : Nat) : Except SyntaxError Emission :=
  match e.level.sequence with
  | none => .error ⟨.emptyExpression, position⟩
  | some f => do
    let { start, lastJump, .. } := e.level
    let split ← e.write position (·.insert start (.split 0))
    let ended : Emission := { split with
      level :=
        { start
          alternatives := some (split.level.addAlternative f.withSplit)
          lastJump := some split.buffer.location } }
    let e ← ended.write position (·.emitJump lastJump)
    let next := e.buffer.location
    return { e with
      buffer := e.buffer.setOffset start (Int16.ofNat (next - start))
      level := { e.level with start := next } }

/-- Does what a token asks for. -/
def feed (limit : Nat) (e : Emission) (t : Token) : Except SyntaxError Emission :=
  match t.kind with
  | .byte b => e.element t.position (.byte b) .byte
  | .set s => e.element t.position s.toInstr .byte
  | .anyByte => e.element t.position .anyByte .byte
  | .inputStart => e.element t.position .inputStart .anchor
  | .inputEnd => e.element t.position .inputEnd .anchor
  | .groupOpen => e.enter limit t.position false
  | .captureOpen => e.enter limit t.position true
  | .groupClose => e.leave t.position false
  | .captureClose => e.leave t.position true
  | .alternation => e.alternate t.position
  | .quantifier q => e.quantify t.position q

/-- Ends the pattern, at its length, with code that accepts; gives the footprint of the whole too. -/
def finish (e : Emission) (length : Nat) : Except SyntaxError (Footprint × Emission) := do
  let (f, e) ← e.closeLevel length
  match e.openings with
  | o :: _ => throw ⟨.unterminatedGroup, o.position⟩
  | [] => return (f, ← e.write length (·.emit .accept))

end Emission

end BoundedRegex
