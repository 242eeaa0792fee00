import BoundedRegex.Bytes.LittleEndian
import BoundedRegex.Pattern.Token

/-!
# Instructions and their bytes

A byte to be matched stands for itself in the code.  Any other instruction starts with the escape
byte `0xAA` and an opcode, and the byte `0xAA` itself is written twice.  Numbers of 16 bits are
little-endian.

`Instr.encode` writes an instruction, `Instr.decode?` reads the one at the start of a text and
gives its size, whatever follows it.
-/

namespace BoundedRegex

/-- The byte that starts every instruction but a plain byte. -/
def escapeByte : UInt8 := 0xAA

/-- The longest code: a 16-bit signed offset reaches from any place in it to any other. -/
def maxCodeLength : Nat := 32767

/-- How a loop repeats its body. -/
structure Loop where
  min : UInt8
  /-- The most repetitions; `unboundedCount` stands for no bound. -/
  max : UInt8
  greedy : Bool
  /-- The body is one instruction, which consumes one byte. -/
  singleByte : Bool
  /-- A finished iteration keeps the frames that its body pushed. -/
  keepsFrames : Bool
  /-- The length of the body, with the instruction that ends an iteration, if any. -/
  bodyLength : UInt16
deriving DecidableEq

/-- The instructions of the matcher. -/
inductive Instr where
  /-- The pattern has matched. -/
  | accept
  /-- Any byte but a line feed. -/
  | anyByte
  | byte (b : UInt8)
  /-- A byte whose bit is set, or one whose bit is not. -/
  | bitmap (negated : Bool) (bits : BitVec 256)
  /-- A byte in one of the ranges, or one in none. -/
  | ranges (negated : Bool) (list : List (UInt8 × UInt8))
  /-- Goes on with the next instruction, and keeps the target for backtracking. -/
  | split (offset : Int16)
  | jump (offset : Int16)
  | loop (l : Loop)
  /-- Ends an iteration of the loop at the target. -/
  | loopEnd (offset : Int16)
  | captureStart (index : UInt8)
  | captureEnd (index : UInt8)
  | inputStart
  | inputEnd
deriving DecidableEq

/-- The address `offset` away from `addr`.  Addresses are words of 64 bits, and wrap. -/
def offsetTarget (addr : Nat) (offset : Int16) : Nat :=
  ((addr + offset.toInt) % 0x10000000000000000).toNat

namespace Loop

/-- The size of the instruction that starts a loop. -/
def size : Nat := 7

/-- Whether an iteration may follow `count` finished ones. -/
def allowsMore (l : Loop) (count : Nat) : Bool :=
  l.max = unboundedCount || count < l.max.toNat

/-- The flags of a loop: greedy, single-byte and frame-keeping, from the lowest bit up. -/
def flags (l : Loop) : UInt8 :=
  (if l.greedy then 1 else 0) + (if l.singleByte then 2 else 0) + (if l.keepsFrames then 4 else 0)

/-- Where the body of a loop at `addr` starts. -/
def body (addr : Nat) : Nat :=
  addr + size

/-- Where the code after a loop at `addr` starts. -/
def after (l : Loop) (addr : Nat) : Nat :=
  body addr + l.bodyLength.toNat

theorem lt_body (addr : Nat) : addr < body addr :=
  Nat.lt_add_of_pos_right (by decide)

theorem lt_after (l : Loop) (addr : Nat) : addr < l.after addr :=
  Nat.lt_of_lt_of_le (lt_body addr) (Nat.le_add_right ..)

end Loop

namespace Instr

/-- Whether the instruction consumes exactly one byte. -/
def isSingleByte : Instr → Bool
  | byte _ | anyByte | bitmap .. | ranges .. => true
  | _ => false

/-- Whether an instruction that consumes one byte accepts `b`; the others accept none. -/
def accepts (i : Instr) (b : UInt8) : Bool :=
  match i with
  | byte c => c = b
  | anyByte => b ≠ 0x0a
  | bitmap negated bits => bits.getLsbD b.toNat ^^ negated
  | ranges negated list => list.any (fun (lo, hi) => lo ≤ b && b ≤ hi) ^^ negated
  | _ => false

/-! ### Writing -/

/-- A 16-bit offset as two bytes. -/
def offsetBytes (offset : Int16) : List UInt8 :=
  LittleEndian.encode 2 offset.toUInt16.toNat

/-- The bytes of an instruction. -/
def encode : Instr → List UInt8
  | byte b => if b = escapeByte then [b, b] else [b]
  | accept => [escapeByte, 0x00]
  | split offset => escapeByte :: 0x01 :: offsetBytes offset
  | jump offset => escapeByte :: 0x02 :: offsetBytes offset
  | anyByte => [escapeByte, 0x03]
  | bitmap negated bits =>
    escapeByte :: 0x04 :: negated.toUInt8 :: LittleEndian.encode 32 bits.toNat
  | ranges negated list =>
    escapeByte :: 0x05 :: negated.toUInt8 :: UInt8.ofNat list.length ::
      list.flatMap fun (lo, hi) => [lo, hi]
  | inputStart => [escapeByte, 0x06]
  | inputEnd => [escapeByte, 0x07]
  | loop l =>
    escapeByte :: 0x08 :: l.flags :: l.min :: l.max :: LittleEndian.encode 2 l.bodyLength.toNat
  | loopEnd offset => escapeByte :: 0x09 :: offsetBytes offset
  | captureStart index => [escapeByte, 0x0a, index]
  | captureEnd index => [escapeByte, 0x0b, index]

/-! ### Reading -/

/-- The offset in two bytes. -/
def readOffset (lo hi : UInt8) : Int16 :=
  (UInt16.ofNat (LittleEndian.decode [lo, hi])).toInt16

/-- Bytes two by two. -/
def pairs : List UInt8 → List (UInt8 × UInt8)
  | lo :: hi :: rest => (lo, hi) :: pairs rest
  | _ => []

/-- The instruction after an escape byte, and its size with that byte. -/
def decodeOpcode? : List UInt8 → Option (Instr × Nat)
  | 0xAA :: _ => some (byte 0xAA, 2)
  | 0x00 :: _ => some (accept, 2)
  | 0x01 :: lo :: hi :: _ => some (split (readOffset lo hi), 4)
  | 0x02 :: lo :: hi :: _ => some (jump (readOffset lo hi), 4)
  | 0x03 :: _ => some (anyByte, 2)
  | 0x04 :: flags :: rest =>
    if 32 ≤ rest.length then
      some (bitmap (flags &&& 1 ≠ 0) (BitVec.ofNat 256 (LittleEndian.decode (rest.take 32))), 35)
    else none
  | 0x05 :: flags :: n :: rest =>
    if 2 * n.toNat ≤ rest.length then
      some (ranges (flags &&& 1 ≠ 0) (pairs (rest.take (2 * n.toNat))), 4 + 2 * n.toNat)
    else none
  | 0x06 :: _ => some (inputStart, 2)
  | 0x07 :: _ => some (inputEnd, 2)
  | 0x08 :: flags :: min :: max :: lo :: hi :: _ =>
    some (loop
      { min, max
        greedy := flags &&& 1 ≠ 0
        singleByte := flags &&& 2 ≠ 0
        keepsFrames := flags &&& 4 ≠ 0
        bodyLength := UInt16.ofNat (LittleEndian.decode [lo, hi]) }, Loop.size)
  | 0x09 :: lo :: hi :: _ => some (loopEnd (readOffset lo hi), 4)
  | 0x0a :: index :: _ => some (captureStart index, 3)
  | 0x0b :: index :: _ => some (captureEnd index, 3)
  | _ => none

/-- The instruction at the start of a text, and its size; `none` if the text is empty, or the
instruction is cut short or unknown. -/
def decode? : List UInt8 → Option (Instr × Nat)
  | [] => none
  | b :: rest => if b = escapeByte then decodeOpcode? rest else some (byte b, 1)

end Instr

/-- The shortest instruction for a set: the byte itself if there is just one, ranges while they
take less room than the bitmap, and the bitmap otherwise. -/
def ByteSet.toInstr (s : ByteSet) : Instr :=
  match s.single? with
  | some b => .byte b
  | none =>
    let runs := s.runs
    if runs.length < 16 then .ranges s.inverted runs else .bitmap s.inverted s.bits

end BoundedRegex
