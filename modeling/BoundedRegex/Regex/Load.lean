import BoundedRegex.Code.Program
import BoundedRegex.Regex.Basic
import BoundedRegex.Regex.LoadError

/-!
# Loading compiled patterns

`Regex.ofBytes` accepts the bytes of a compiled pattern if the header agrees with them and the code
is one that a matcher can run: every instruction is whole, jumps go forward to the start of an
instruction, loops are well-formed, captures are in range, and the only accepting instruction is
the last one.  All of the code is decoded before any of it is judged.
-/

namespace BoundedRegex

/-- An instruction at its address. -/
structure Located where
  addr : Nat
  instr : Instr
  size : Nat

/-- The instructions of the code that starts at `addr`, or the address of the first that cannot be
decoded. -/
def locate (addr : Nat) : List UInt8 → Except Nat (List Located)
  | [] => .ok []
  | b :: rest =>
    match Instr.decode? (b :: rest) with
    | none => .error addr
    | some (instr, size) =>
      match locate (addr + size) (rest.drop (size - 1)) with
      | .ok located => .ok (⟨addr, instr, size⟩ :: located)
      | .error e => .error e
termination_by code => code.length
decreasing_by simp only [List.length_cons, List.length_drop]; omega

/-- For each address, whether an instruction starts there. -/
def startMarks (located : List Located) : Array Bool :=
  (located.flatMap fun l => true :: List.replicate (l.size - 1) false).toArray

/-- What the instructions of a code are judged by. -/
structure CodeContext where
  program : Program
  starts : Array Bool
  captures : Nat

namespace CodeContext

/-- Whether an instruction starts at an address. -/
def isStart (c : CodeContext) (addr : Nat) : Bool :=
  c.starts.getD addr false

/-- Whether the loop at `addr` can be run: its bounds are in order, it keeps frames only if it may,
its body and the code after it are instructions, and the body is either one instruction that
consumes a byte, or ends with an instruction that goes back to the loop. -/
def loopIsSound (c : CodeContext) (addr : Nat) (l : Loop) : Bool :=
  let body := Loop.body addr
  let after := l.after addr
  l.max ≠ 0 && l.min ≠ unboundedCount && (l.max = unboundedCount || l.min ≤ l.max) &&
    !(l.keepsFrames && (l.singleByte || l.max = unboundedCount)) &&
    c.isStart body && c.isStart after &&
    if l.singleByte then
      match c.program.fetch? body with
      | some (i, size) => i.isSingleByte && size = l.bodyLength.toNat
      | none => false
    else
      body < after - 4 && c.isStart (after - 4) &&
        match c.program.fetch? (after - 4) with
        | some (.loopEnd offset, _) => offsetTarget (after - 4) offset = addr
        | _ => false

/-- Whether the instruction at `addr` ends the iterations of the loop it goes back to. -/
def loopEndIsSound (c : CodeContext) (addr : Nat) (offset : Int16) : Bool :=
  let target := offsetTarget addr offset
  offset < 0 && c.isStart target &&
    match c.program.fetch? target with
    | some (.loop l, _) => !l.singleByte && l.after target = addr + 4
    | _ => false

/-- Whether an instruction can be run. -/
def isSound (c : CodeContext) (l : Located) : Bool :=
  match l.instr with
  | .split offset | .jump offset => 0 < offset && c.isStart (offsetTarget l.addr offset)
  | .captureStart index | .captureEnd index => index.toNat < c.captures
  | .loop loop => c.loopIsSound l.addr loop
  | .loopEnd offset => c.loopEndIsSound l.addr offset
  | _ => true

/-- The offset of the first fault in instructions that end at `stop`.  Nothing may follow an
instruction that accepts, and the code must have one. -/
def firstFault (c : CodeContext) (stop : Nat) : List Located → Option Nat
  | [] => some stop
  | l :: rest =>
    if l.instr = .accept then rest.head?.map (·.addr)
    else if c.isSound l then firstFault c stop rest
    else some l.addr

end CodeContext

/-- The offset of the fault that makes a code unfit to be run, if it has one. -/
def codeFault? (code : List UInt8) (captures : Nat) : Option Nat :=
  match locate 0 code with
  | .error addr => some addr
  | .ok located =>
    CodeContext.firstFault ⟨Program.ofCode code, startMarks located, captures⟩ code.length located

theorem length_code_le {bytes : List UInt8} {first codeLength : Nat}
    (h : codeLength ≤ maxCodeLength ∧ bytes.length = first + codeLength) :
    (bytes.drop first).length ≤ maxCodeLength := by
  obtain ⟨hle, hlen⟩ := h
  rw [List.length_drop]
  omega

theorem decode_bits_lt {bytes : List UInt8} {captures codeLength : Nat}
    (h : codeLength ≤ maxCodeLength ∧ bytes.length = headerLength captures + codeLength) :
    LittleEndian.decode ((bytes.drop fixedHeaderLength).take (captureBytes captures)) <
      Nat.pow 256 (captureBytes captures) := by
  have hbits : ((bytes.drop fixedHeaderLength).take (captureBytes captures)).length =
      captureBytes captures := by
    have hlen := h.2
    rw [headerLength] at hlen
    rw [List.length_take, List.length_drop]
    omega
  have hlt := LittleEndian.decode_lt ((bytes.drop fixedHeaderLength).take (captureBytes captures))
  rwa [hbits] at hlt

/-- Loads a compiled pattern. -/
def Regex.ofBytes (bytes : List UInt8) : Except LoadError Regex :=
  let captures := bytes.getD 8 0
  let codeLength := LittleEndian.decode ((bytes.drop 4).take 2)
  let bits := (bytes.drop fixedHeaderLength).take (captureBytes captures.toNat)
  let code := bytes.drop (headerLength captures.toNat)
  if bytes.length < fixedHeaderLength ∨ bytes.take 3 ≠ magic then .error .invalidFormat
  else if bytes.getD 3 0 ≠ formatVersion then .error (.unsupportedVersion (bytes.getD 3 0))
  else if h : codeLength ≤ maxCodeLength ∧
      bytes.length = headerLength captures.toNat + codeLength then
    match codeFault? code captures.toNat with
    | some offset => .error (.invalidCode offset)
    | none =>
      .ok
        { code
          scratchDepth := UInt16.ofNat (LittleEndian.decode ((bytes.drop 6).take 2))
          captures
          loopBound := LittleEndian.decode bits
          code_le := length_code_le h
          loopBound_lt := decode_bits_lt h }
  else .error .invalidFormat

end BoundedRegex
