import BoundedRegex.Code.Instr

/-!
# The code buffer

Code is written into a buffer of fixed size: `code` is what has been written, `room` the rest of
the buffer with whatever it held before.  Instructions go to the end, or are inserted in front of
code that stands already, which moves it.  Offsets count from the instruction that holds them, so
a block of code may be moved as a whole.

Jumps to a place not yet known form a chain: until `patchJumps` sets them, the offset of each
holds the distance to the jump before it, and that of the first is zero.
-/

namespace BoundedRegex

/-- A buffer that is being filled with code. -/
structure CodeBuffer where
  code : Array UInt8
  room : List UInt8
  /-- The size of the whole buffer. -/
  size : Nat
  size_eq : size = code.size + room.length
  code_le : code.size ≤ maxCodeLength

namespace CodeBuffer

/-- A buffer with nothing written yet. -/
def ofRoom (buffer : List UInt8) : CodeBuffer :=
  { code := #[], room := buffer, size := buffer.length, size_eq := by simp, code_le := by simp }

/-- Where the next instruction goes. -/
def location (b : CodeBuffer) : Nat :=
  b.code.size

/-- The most code the buffer may take. -/
def capacity (b : CodeBuffer) : Nat :=
  Nat.min b.size maxCodeLength

theorem size_eq_of_le_capacity {b : CodeBuffer} {n : Nat} (h : b.code.size + n ≤ b.capacity) :
    b.size = b.code.size + n + (b.room.drop n).length := by
  have hsize := b.size_eq
  have hcap : b.capacity ≤ b.size := Nat.min_le_left ..
  simp only [List.length_drop]
  omega

theorem code_le_of_le_capacity {b : CodeBuffer} {n : Nat} (h : b.code.size + n ≤ b.capacity) :
    b.code.size + n ≤ maxCodeLength :=
  Nat.le_trans h (Nat.min_le_right ..)

/-- Writes an instruction at the end; `none` if there is no room for it. -/
def emit (b : CodeBuffer) (i : Instr) : Option CodeBuffer :=
  let bytes := i.encode
  if h : b.code.size + bytes.length ≤ b.capacity then
    some
      { code := b.code ++ bytes.toArray
        room := b.room.drop bytes.length
        size := b.size
        size_eq := by simpa using size_eq_of_le_capacity h
        code_le := by simpa using code_le_of_le_capacity h }
  else none

/-- Code with bytes put in at a location. -/
def inserted (code : Array UInt8) (location : Nat) (bytes : List UInt8) : Array UInt8 :=
  let moved := code.extract location code.size
  code.shrink location ++ bytes.toArray ++ moved

theorem size_inserted (code : Array UInt8) (location : Nat) (bytes : List UInt8) :
    (inserted code location bytes).size = code.size + bytes.length := by
  simp only [inserted, Array.size_append, Array.size_shrink, Array.size_extract, List.size_toArray]
  omega

/-- Writes an instruction at a location, moving what stands there and after it; `none` if there
is no room for it. -/
def insert (b : CodeBuffer) (location : Nat) (i : Instr) : Option CodeBuffer :=
  let bytes := i.encode
  if h : b.code.size + bytes.length ≤ b.capacity then
    some
      { code := inserted b.code location bytes
        room := b.room.drop bytes.length
        size := b.size
        size_eq := by simpa [size_inserted] using size_eq_of_le_capacity h
        code_le := by simpa [size_inserted] using code_le_of_le_capacity h }
  else none

/-- The offset of the instruction at a location: its third and fourth byte. -/
def offsetAt (b : CodeBuffer) (location : Nat) : Int16 :=
  Instr.readOffset (b.code.getD (location + 2) 0) (b.code.getD (location + 3) 0)

/-- Sets the offset of the instruction at a location. -/
def setOffset (b : CodeBuffer) (location : Nat) (offset : Int16) : CodeBuffer :=
  let bytes := Instr.offsetBytes offset
  { b with
    code := (b.code.setIfInBounds (location + 2) (bytes.getD 0 0)).setIfInBounds (location + 3)
      (bytes.getD 1 0)
    size_eq := by simpa using b.size_eq
    code_le := by simpa using b.code_le }

/-- Writes a jump whose target is not known yet, linked to the pending jump at `previous`. -/
def emitJump (b : CodeBuffer) (previous : Option Nat) : Option CodeBuffer :=
  let link := match previous with
    | some p => Int16.ofNat (b.location - p)
    | none => 0
  b.emit (.jump link)

/-- Makes every jump of the chain that ends at `last` go to `target`. -/
def patchJumps (b : CodeBuffer) (last target : Nat) : CodeBuffer :=
  let link := (b.offsetAt last).toInt
  let patched := b.setOffset last (Int16.ofNat (target - last))
  if 0 < link ∧ link ≤ last then patched.patchJumps (last - link.toNat) target
  else patched
termination_by last
decreasing_by omega

/-- Turns the code from `start` on into the body of a loop.  The loop is inserted in front of it,
and an instruction that ends an iteration is added behind a body that is not a single byte. -/
def makeLoop (b : CodeBuffer) (start : Nat) (q : Quantifier) (singleByte keepsFrames : Bool) :
    Option CodeBuffer := do
  let body := b.location - start
  let l : Loop :=
    { min := q.min, max := q.max, greedy := q.greedy, singleByte, keepsFrames
      bodyLength := UInt16.ofNat (if singleByte then body else body + 4) }
  let b ← b.insert start (.loop l)
  if singleByte then some b else b.emit (.loopEnd (-Int16.ofNat (b.location - start)))

end CodeBuffer

end BoundedRegex
