import BoundedRegex.Proofs.Code.Encoding
import BoundedRegex.Proofs.Code.Layout
import BoundedRegex.Proofs.Pattern.Reading

/-!
# The code of an expression

`Expr.code` is the code of an expression as a whole.  Offsets in it count from the instruction that
holds them, so it may stand anywhere: a program in which it stands has the expression laid out
there (`Expr.laidOut_of_holds`).
-/

namespace BoundedRegex

/-- Code that is a split, the first of two alternatives and a jump behind the second. -/
def alternativeCode (first : List UInt8) (jump : Int16) : List UInt8 :=
  (Instr.split (.ofNat (first.length + 8))).encode ++ first ++ (Instr.jump jump).encode

theorem length_alternativeCode (first : List UInt8) (jump : Int16) :
    (alternativeCode first jump).length = first.length + 8 := by
  simp [alternativeCode, Instr.encode, Instr.offsetBytes]
  omega

namespace Expr

/-- The code of an expression. -/
def code : Expr → List UInt8
  | leaf l => l.instr.encode
  | anchor x => x.instr.encode
  | seq e f => e.code ++ f.code
  | alt e f => alternativeCode e.code (.ofNat (f.code.length + 4)) ++ f.code
  | capture index e =>
    (Instr.captureStart index).encode ++ e.code ++ (Instr.captureEnd index).encode
  | repetition e q =>
    (Instr.loop (e.toLoop q
      (.ofNat (if e.isLeaf then e.code.length else e.code.length + 4)))).encode ++ e.code ++
      if e.isLeaf then [] else (Instr.loopEnd (-.ofNat (e.code.length + 7))).encode

/-- The length of the body of a repetition, with the instruction that ends an iteration. -/
theorem length_code_repetition (e : Expr) (q : Quantifier) :
    (repetition e q).code.length =
      7 + if e.isLeaf then e.code.length else e.code.length + 4 := by
  rw [code, List.length_append, List.length_append]
  cases e.isLeaf with
  | true => rfl
  | false => exact Nat.add_assoc 7 ..

/-! ### Alternatives that others follow -/

/-- The code of some alternatives, the last of them in front, before it is known where the code of
the whole ends: each jump holds the distance to the one before it, and the first one zero. -/
def pendingCode : List Expr → List UInt8
  | [] => []
  | e :: earlier =>
    pendingCode earlier ++
      alternativeCode e.code (if earlier.isEmpty then 0 else .ofNat (e.code.length + 8))

/-- The same code when it is known, with what comes behind it. -/
def closedCode : List Expr → List UInt8 → List UInt8
  | [], rest => rest
  | e :: earlier, rest =>
    closedCode earlier (alternativeCode e.code (.ofNat (rest.length + 4)) ++ rest)

theorem closedCode_code (earlier : List Expr) (e : Expr) :
    closedCode earlier e.code = (alternation earlier e).code := by
  induction earlier generalizing e with
  | nil => rfl
  | cons f earlier ih => exact ih (.alt f e)

theorem length_pendingCode_cons (e : Expr) (earlier : List Expr) :
    (pendingCode (e :: earlier)).length = (pendingCode earlier).length + (e.code.length + 8) := by
  rw [pendingCode, List.length_append, length_alternativeCode]

end Expr

/-! ### Code in a program -/

namespace Program

/-- A program has some code at an address. -/
def Holds (p : Program) (a : Nat) (code : List UInt8) : Prop :=
  ∃ pre post, p.code = pre ++ (code ++ post) ∧ a = pre.length

namespace Holds

variable {p : Program} {a : Nat} {code code' : List UInt8}

theorem left (h : p.Holds a (code ++ code')) : p.Holds a code := by
  obtain ⟨pre, post, hp, ha⟩ := h
  exact ⟨pre, code' ++ post, by rw [hp, List.append_assoc], ha⟩

theorem right (h : p.Holds a (code ++ code')) : p.Holds (a + code.length) code' := by
  obtain ⟨pre, post, hp, rfl⟩ := h
  exact ⟨pre ++ code, post, by rw [hp, List.append_assoc, List.append_assoc],
    List.length_append.symm⟩

theorem le (h : p.Holds a code) : a + code.length ≤ p.code.length := by
  obtain ⟨pre, post, hp, rfl⟩ := h
  rw [hp, List.length_append, List.length_append]
  omega

/-- What can be decoded is fetched where its bytes stand. -/
theorem fetch?_of_decode? {i : Instr} {size : Nat} (h : p.Holds a code)
    (hd : Instr.decode? code = some (i, size)) : p.fetch? a = some (i, size) := by
  obtain ⟨pre, post, hp, ha⟩ := h
  rw [p.fetch?_eq, hp, List.drop_left' ha.symm, Instr.decode?_append hd]

theorem fetch?_eq {i : Instr} (h : p.Holds a i.encode) (hi : i.Encodable) :
    p.fetch? a = some (i, i.encode.length) :=
  h.fetch?_of_decode? (by simpa using Instr.decode?_encode hi [])

end Holds

end Program

theorem ByteSet.encodable_toInstr (s : ByteSet) : s.toInstr.Encodable := by
  unfold toInstr
  cases s.single? with
  | some c => trivial
  | none =>
    dsimp only
    split
    · next h => exact Nat.lt_trans h (by decide)
    · trivial

theorem Leaf.encodable_instr (l : Leaf) : l.instr.Encodable := by
  cases l with
  | byte | anyByte => trivial
  | set s => exact s.encodable_toInstr

theorem Anchor.encodable_instr (x : Anchor) : x.instr.Encodable := by
  cases x <;> trivial

namespace Expr

/-- **Where a program has the code of an expression, it has the expression laid out.** -/
theorem laidOut_of_holds {p : Program} (e : Expr) {a : Nat} (h : p.Holds a e.code)
    (hlen : p.code.length ≤ maxCodeLength) : e.LaidOut p a (a + e.code.length) := by
  have hle := h.le
  induction e generalizing a with
  | leaf l => exact ⟨_, h.fetch?_eq l.encodable_instr, rfl⟩
  | anchor x => exact ⟨_, h.fetch?_eq x.encodable_instr, rfl⟩
  | seq e f ihe ihf =>
    rw [code] at h ⊢
    rw [List.length_append, ← Nat.add_assoc]
    exact ⟨_, ihe h.left h.left.le, ihf h.right h.right.le⟩
  | alt e f ihe ihf =>
    rw [code, List.length_append, length_alternativeCode] at hle ⊢
    have hsplit : p.Holds a (Instr.split (.ofNat (e.code.length + 8))).encode := h.left.left.left
    have he : p.Holds (a + 4) e.code := h.left.left.right
    have hjump := h.left.right
    have hf := h.right
    rw [List.length_append, ← Nat.add_assoc] at hjump
    rw [length_alternativeCode, Nat.add_comm e.code.length 8, ← Nat.add_assoc] at hf
    refine ⟨a + 4 + e.code.length, _, _, hsplit.fetch?_eq trivial, ?_, ihe he he.le,
      hjump.fetch?_eq trivial, ?_, ?_⟩
    · rw [offsetTarget_ofNat (by omega) (by omega)]
      omega
    · show offsetTarget (a + 4 + e.code.length) _ = _
      rw [offsetTarget_ofNat (by omega) (by omega)]
      omega
    · have hlast := ihf hf hf.le
      rw [show a + 8 + e.code.length = a + 4 + e.code.length + 4 by omega,
        show a + 4 + e.code.length + 4 + f.code.length =
          a + (e.code.length + 8 + f.code.length) by omega] at hlast
      exact hlast
  | capture index e ih =>
    have hopen : p.Holds a (Instr.captureStart index).encode := h.left.left
    have he : p.Holds (a + 3) e.code := h.left.right
    have hclose := h.right
    rw [List.length_append, ← Nat.add_assoc] at hclose
    refine ⟨a + 3 + e.code.length, hopen.fetch?_eq trivial, ih he he.le,
      hclose.fetch?_eq trivial, ?_⟩
    rw [code, List.length_append, List.length_append, ← Nat.add_assoc, ← Nat.add_assoc]
    rfl
  | repetition e q ih =>
    rw [length_code_repetition] at hle ⊢
    have hloop := h.left.left
    have he : p.Holds (Loop.body a) e.code := h.left.right
    have hrest := h.right
    rw [List.length_append, ← Nat.add_assoc] at hrest
    refine ⟨_, hloop.fetch?_eq trivial, ?_, ?_⟩
    · rw [Loop.after, Loop.body, Nat.add_assoc]
      show a + (7 + (UInt16.ofNat _).toNat) = _
      rw [UInt16.toNat_ofNat_of_lt' (by simp only [UInt16.size, maxCodeLength] at *; omega)]
    · have hlast := ih he he.le
      cases hleaf : e.isLeaf with
      | true =>
        rw [if_pos rfl, if_pos rfl, ← Nat.add_assoc]
        exact hlast
      | false =>
        rw [hleaf, if_neg Bool.false_ne_true] at hrest hle
        rw [if_neg Bool.false_ne_true, if_neg Bool.false_ne_true]
        refine ⟨_, _, hlast, hrest.fetch?_eq trivial, ?_, ?_⟩
        · show offsetTarget (a + 7 + e.code.length) _ = _
          rw [offsetTarget_neg (by omega) (by omega)]
          omega
        · show _ = a + 7 + e.code.length + 4
          omega

end Expr

end BoundedRegex
