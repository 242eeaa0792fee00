import BoundedRegex.Code.Instr

/-!
# Code to be run

A program is code together with the instruction at each of its addresses, decoded once.  Jumps may
go to any address, so every address has its entry, also those inside instructions.
-/

namespace BoundedRegex

/-- The instruction at each address of a code. -/
def decodeEach : List UInt8 → List (Option (Instr × Nat))
  | [] => []
  | b :: rest => Instr.decode? (b :: rest) :: decodeEach rest

/-- Code that has been decoded. -/
structure Program where
  code : List UInt8
  table : Array (Option (Instr × Nat))
  table_eq : table = (decodeEach code).toArray

namespace Program

/-- Decodes a code. -/
def ofCode (code : List UInt8) : Program :=
  { code, table := (decodeEach code).toArray, table_eq := rfl }

/-- The instruction at an address, and its size. -/
def fetch? (p : Program) (addr : Nat) : Option (Instr × Nat) :=
  (p.table[addr]?).join

end Program

theorem decodeEach_join (code : List UInt8) (addr : Nat) :
    ((decodeEach code)[addr]?).join = Instr.decode? (code.drop addr) := by
  induction code generalizing addr with
  | nil => simp [decodeEach, Instr.decode?]
  | cons b rest ih =>
    cases addr with
    | zero => simp [decodeEach]
    | succ addr => simpa [decodeEach] using ih addr

/-- Fetching is decoding at the address. -/
theorem Program.fetch?_eq (p : Program) (addr : Nat) :
    p.fetch? addr = Instr.decode? (p.code.drop addr) := by
  simp [fetch?, p.table_eq, decodeEach_join]

end BoundedRegex
