import BoundedRegex.Proofs.Code.Generation

/-!
# The code of what has been read

Between two tokens the code is that of what has been read: pending alternatives, then the open one.
-/

namespace BoundedRegex

namespace Reading

variable {r : Reading} {e : Expr}

/-- The code of an expression, if there is one. -/
def optionCode : Option Expr → List UInt8
  | some e => e.code
  | none => []

/-- The code of what has been read. -/
def code (r : Reading) : List UInt8 :=
  Expr.pendingCode r.earlier ++ optionCode r.sequence

theorem optionCode_sequence (r : Reading) :
    optionCode r.sequence = optionCode r.atoms ++ optionCode r.operand := by
  unfold sequence
  cases r.atoms <;> cases r.operand <;> simp [optionCode, Expr.code]

theorem code_place (r : Reading) (e : Expr) : (r.place e).code = r.code ++ e.code := by
  rw [code, optionCode_sequence, ← List.append_assoc]
  rfl

/-- The code of what has been read ends with the operand. -/
theorem code_of_operand (ho : r.operand = some e) :
    r.code = Expr.pendingCode r.earlier ++ optionCode r.atoms ++ e.code := by
  rw [code, optionCode_sequence, ho, ← List.append_assoc]
  rfl

theorem code_quantify (r : Reading) (e : Expr) (q : Quantifier) :
    (r.quantify e q).code =
      Expr.pendingCode r.earlier ++ optionCode r.atoms ++ (Expr.repetition e q).code := by
  show Expr.pendingCode r.earlier ++ optionCode (r.quantify e q).sequence = _
  rw [optionCode_sequence]
  show _ ++ (optionCode { r with operand := some (.repetition e q) }.sequence ++ []) = _
  rw [optionCode_sequence, List.append_nil, ← List.append_assoc]
  rfl

/-- The code of what has been read is that of the finished alternatives and the open one. -/
theorem code_of_sequence (hs : r.sequence = some e) :
    r.code = Expr.pendingCode r.earlier ++ e.code := by
  rw [code, hs]
  rfl

theorem code_alternate (r : Reading) (e : Expr) :
    (r.alternate e).code = Expr.pendingCode (e :: r.earlier) :=
  List.append_nil _

end Reading

/-! ### Brackets -/

/-- The code that opens a bracket. -/
def openingCode : Option UInt8 → List UInt8
  | some index => (Instr.captureStart index).encode
  | none => []

/-- The code of what has been read around a bracket, and of its opening. -/
def Around.code : Around → List UInt8
  | [] => []
  | (capture, r) :: around => Around.code around ++ (r.code ++ openingCode capture)

end BoundedRegex
