import BoundedRegex.Proofs.Code.Validation

/-!
# Code that can be loaded

Loading marks where instructions start, and then judges one instruction after another.
`Program.Admissible` says what that comes to: wherever an instruction starts there is one, it may
be run (`Program.Admits`), and it is the last one just if it accepts.

* `codeFault?_eq_none_iff`: code has no fault just if it is admissible.
* `Program.Admissible.sound`: admissible code is all that a machine relies on.
-/

namespace BoundedRegex

/-! ### What is asked of an instruction -/

/-- The operands of a loop may be run: its bounds are in order, and it keeps frames only if it has
an upper bound and more than one instruction in its body. -/
structure Loop.InOrder (l : Loop) : Prop where
  max_ne_zero : l.max ≠ 0
  min_ne_unbounded : l.min ≠ unboundedCount
  min_le_max : l.max = unboundedCount ∨ l.min ≤ l.max
  keepsFrames : l.keepsFrames = true → l.singleByte = false ∧ l.max ≠ unboundedCount

namespace Program

/-- A program has the body of the loop at an address: one instruction that consumes a byte, or code
that ends with an instruction which goes back to the loop. -/
def HasBody (p : Program) (a : Nat) (l : Loop) : Prop :=
  if l.singleByte then
    ∃ i, p.fetch? (Loop.body a) = some (i, l.bodyLength.toNat) ∧ i.isSingleByte = true
  else
    Loop.body a < l.after a - 4 ∧ p.Starts (l.after a - 4) ∧
      ∃ offset n, p.fetch? (l.after a - 4) = some (.loopEnd offset, n) ∧
        offsetTarget (l.after a - 4) offset = a

/-- An instruction at an address may be run:
* jumps go forward, to an instruction;
* captures are in range;
* a loop has its body, and code after it;
* the end of an iteration goes back to a loop, of which it is the last instruction. -/
def Admits (p : Program) (captures a : Nat) : Instr → Prop
  | .split offset | .jump offset => 0 < offset ∧ p.Starts (offsetTarget a offset)
  | .captureStart index | .captureEnd index => index.toNat < captures
  | .loop l => l.InOrder ∧ p.Starts (Loop.body a) ∧ p.Starts (l.after a) ∧ p.HasBody a l
  | .loopEnd offset =>
    offset < 0 ∧ p.Starts (offsetTarget a offset) ∧
      ∃ l n, p.fetch? (offsetTarget a offset) = some (.loop l, n) ∧ l.singleByte = false ∧
        l.after (offsetTarget a offset) = a + 4
  | _ => True

/-- Wherever an instruction starts there is one, which may be run, and it is the last one just if it
accepts. -/
structure Admissible (p : Program) (captures : Nat) : Prop where
  zero : p.Starts 0
  admits {a : Nat} (h : p.Starts a) : ∃ i size, p.fetch? a = some (i, size) ∧
    p.Admits captures a i ∧ (i = .accept ↔ a + size = p.code.length)

end Program

/-! ### What is checked of an instruction -/

namespace CodeContext

variable {c : CodeContext} {a size : Nat} {l : Loop}
  (hstart : ∀ a, c.isStart a = true ↔ c.program.Starts a)

theorem inOrder_iff : l.InOrder ↔
    (decide (l.max ≠ 0) && decide (l.min ≠ unboundedCount) &&
      (decide (l.max = unboundedCount) || decide (l.min ≤ l.max)) &&
      !(l.keepsFrames && (l.singleByte || decide (l.max = unboundedCount)))) = true := by
  simp only [Bool.and_eq_true, Bool.or_eq_true, decide_eq_true_eq, Bool.not_eq_true',
    Bool.and_eq_false_iff, Bool.or_eq_false_iff, decide_eq_false_iff_not]
  constructor
  · intro h
    refine ⟨⟨⟨h.max_ne_zero, h.min_ne_unbounded⟩, h.min_le_max⟩, ?_⟩
    cases hk : l.keepsFrames with
    | false => exact Or.inl rfl
    | true => exact Or.inr (h.keepsFrames hk)
  · rintro ⟨⟨⟨hmax, hmin⟩, hle⟩, hkeeps⟩
    refine ⟨hmax, hmin, hle, fun hk => ?_⟩
    rcases hkeeps with h | h
    · cases hk.symm.trans h
    · exact h

include hstart

theorem loopIsSound_iff : c.loopIsSound a l = true ↔
    l.InOrder ∧ c.program.Starts (Loop.body a) ∧ c.program.Starts (l.after a) ∧
      c.program.HasBody a l := by
  rw [inOrder_iff, loopIsSound, Program.HasBody]
  simp only [Bool.and_eq_true, hstart, and_assoc]
  refine and_congr_right fun _ => and_congr_right fun _ => and_congr_right fun _ =>
    and_congr_right fun _ => and_congr_right fun _ => and_congr_right fun _ => ?_
  cases l.singleByte with
  | true =>
    rw [if_pos rfl, if_pos rfl]
    rcases c.program.fetch? (Loop.body a) with - | ⟨i, n⟩
    · simp
    · simp only [Option.some.injEq, Prod.mk.injEq, Bool.and_eq_true, decide_eq_true_eq]
      constructor
      · rintro ⟨hi, rfl⟩
        exact ⟨i, ⟨rfl, rfl⟩, hi⟩
      · rintro ⟨_, ⟨rfl, rfl⟩, hi⟩
        exact ⟨hi, rfl⟩
  | false =>
    rw [if_neg Bool.false_ne_true, if_neg Bool.false_ne_true]
    simp only [Bool.and_eq_true, decide_eq_true_eq, hstart, and_assoc]
    refine and_congr_right fun _ => and_congr_right fun _ => ?_
    rcases c.program.fetch? (l.after a - 4) with - | ⟨i, n⟩
    · simp
    · cases i <;> simp

theorem isSound_iff (i : Instr) :
    c.isSound ⟨a, i, size⟩ = true ↔ c.program.Admits c.captures a i := by
  cases i with
  | split offset | jump offset =>
    simp only [isSound, Program.Admits, Bool.and_eq_true, decide_eq_true_eq, hstart]
  | captureStart index | captureEnd index => exact decide_eq_true_iff
  | loop l => exact loopIsSound_iff hstart
  | loopEnd offset =>
    simp only [isSound, loopEndIsSound, Program.Admits, Bool.and_eq_true, decide_eq_true_eq, hstart,
      and_assoc]
    refine and_congr_right fun _ => and_congr_right fun _ => ?_
    rcases c.program.fetch? (offsetTarget a offset) with - | ⟨i, n⟩
    · simp
    · cases i <;> simp
  | accept | anyByte | byte | bitmap | ranges | inputStart | inputEnd =>
    exact iff_of_true rfl trivial

end CodeContext

/-! ### Code without a fault -/

section

variable {p : Program} {captures addr stop : Nat} {located : List Located} {c : CodeContext}

/-- What the check for faults says of each instruction: it may be run, and it is the last one just if
it accepts. -/
theorem Located.Chain.admitted (h : Located.Chain p addr located)
    (hfault : c.firstFault stop located = none) {l : Located} (hl : l ∈ located) :
    c.isSound l = true ∧ (l.instr = .accept ↔ l.addr + l.size = p.code.length) := by
  induction h with
  | nil => cases hl
  | @cons first rest hf h ih =>
    rw [CodeContext.firstFault] at hfault
    by_cases haccept : first.instr = .accept
    · rw [if_pos haccept] at hfault
      have hrest : rest = [] := by simpa using hfault
      subst hrest
      obtain rfl := List.mem_singleton.1 hl
      exact ⟨by rw [CodeContext.isSound, haccept], iff_of_true haccept h.eq_length⟩
    · rw [if_neg haccept] at hfault
      by_cases hsound : c.isSound first = true
      · rw [if_pos hsound] at hfault
        rcases List.mem_cons.1 hl with rfl | hl
        · refine ⟨hsound, iff_of_false haccept fun heq => ?_⟩
          rw [heq] at h
          rw [h.eq_nil] at hfault
          cases hfault
        · exact ih hfault hl
      · rw [if_neg hsound] at hfault
        cases hfault

/-- From where an instruction of admissible code starts, the code can be read to its end, and no
fault is found. -/
theorem Program.Admissible.exists_chain (h : p.Admissible captures) {a : Nat} (ha : p.Starts a) :
    ∃ located, Located.Chain p a located ∧ ∀ c : CodeContext, c.program = p →
      c.captures = captures → (∀ a, c.isStart a = true ↔ c.program.Starts a) →
        ∀ stop, c.firstFault stop located = none := by
  generalize hrest : p.code.length - a = rest
  induction rest using Nat.strongRecOn generalizing a with
  | ind rest ih =>
    obtain ⟨i, size, hf, hadmits, hlast⟩ := h.admits ha
    have hsize := Program.length_of_fetch? hf
    by_cases hi : i = .accept
    · -- The last instruction.
      have hend := hlast.1 hi
      refine ⟨[⟨a, i, size⟩], .cons (l := ⟨a, i, size⟩) hf (hend ▸ .nil), ?_⟩
      intro c _ _ _ stop
      simp only [CodeContext.firstFault, hi, if_true, List.head?_nil, Option.map_none]
    · have hnext : p.Starts (a + size) := by
        refine .next ha hf (Nat.lt_of_le_of_ne hsize.2 fun hend => hi (hlast.2 hend))
      obtain ⟨located, hchain, hfault⟩ := ih (p.code.length - (a + size))
        (by have := ha.lt; omega) hnext rfl
      refine ⟨⟨a, i, size⟩ :: located, .cons (l := ⟨a, i, size⟩) hf hchain, ?_⟩
      intro c hp hcaptures hstart stop
      have hsound : c.isSound ⟨a, i, size⟩ = true := by
        subst hp hcaptures
        exact (CodeContext.isSound_iff hstart i).2 hadmits
      rw [CodeContext.firstFault, if_neg hi, if_pos hsound]
      exact hfault c hp hcaptures hstart stop

end

/-- **Code has no fault just if it is admissible.** -/
theorem codeFault?_eq_none_iff {code : List UInt8} {captures : Nat} :
    codeFault? code captures = none ↔ (Program.ofCode code).Admissible captures := by
  constructor
  · intro h
    rw [codeFault?] at h
    cases hlocate : locate 0 code with
    | error addr => rw [hlocate] at h; cases h
    | ok located =>
      rw [hlocate] at h
      have hchain : Located.Chain (.ofCode code) 0 located := locate_chain (Nat.zero_le _) hlocate
      have hstart := CodeContext.isStart_iff (c := ⟨.ofCode code, startMarks located, captures⟩)
        hchain rfl
      refine ⟨?_, ?_⟩
      · cases located with
        | nil => cases h
        | cons l rest =>
          have hsize := Program.length_of_fetch? (hchain.of_mem List.mem_cons_self).1
          exact .zero (by omega)
      · intro a ha
        obtain ⟨l, hl, rfl⟩ := hchain.exists_of_starts ha
        obtain ⟨hsound, hlast⟩ := hchain.admitted h hl
        exact ⟨l.instr, l.size, (hchain.of_mem hl).1,
          (CodeContext.isSound_iff hstart l.instr).1 hsound, hlast⟩
  · intro h
    obtain ⟨located, hchain, hfault⟩ := h.exists_chain h.zero
    have hlocate : locate 0 code = .ok located := locate_of_chain hchain
    rw [codeFault?, hlocate]
    exact hfault ⟨.ofCode code, startMarks located, captures⟩ rfl rfl
      (CodeContext.isStart_iff hchain rfl) _

/-- Admissible code is all that a machine relies on. -/
theorem Program.Admissible.sound {p : Program} {captures : Nat} (h : p.Admissible captures)
    (hlen : p.code.length ≤ maxCodeLength) : p.Sound := by
  have hadmits {a : Nat} {i : Instr} {size : Nat} (ha : p.Starts a)
      (hf : p.fetch? a = some (i, size)) :
      p.Admits captures a i ∧ (i = .accept ↔ a + size = p.code.length) := by
    obtain ⟨i', size', hf', hadmits⟩ := h.admits ha
    cases hf.symm.trans hf'
    exact hadmits
  have hle {a : Nat} (ha : p.Starts a) : a ≤ maxCodeLength :=
    Nat.le_trans (Nat.le_of_lt ha.lt) hlen
  exact {
    zero := h.zero
    fetch := fun ha => by
      obtain ⟨i, size, hf, -⟩ := h.admits ha
      exact ⟨i, size, hf⟩
    next := fun ha hf hi => .next ha hf
      (Nat.lt_of_le_of_ne (length_of_fetch? hf).2 fun hend => hi ((hadmits ha hf).2.2 hend))
    split := fun ha hf =>
      ⟨lt_offsetTarget (hadmits ha hf).1.1 (hle ha), (hadmits ha hf).1.2⟩
    jump := fun ha hf =>
      ⟨lt_offsetTarget (hadmits ha hf).1.1 (hle ha), (hadmits ha hf).1.2⟩
    loop := fun ha hf => by
      obtain ⟨hin, hbody, hafter, -⟩ := (hadmits ha hf).1
      exact ⟨hbody, hafter, fun hk => (hin.keepsFrames hk).1⟩
    loopEnd := fun ha hf => by
      obtain ⟨-, htarget, l, n, hl⟩ := (hadmits ha hf).1
      exact ⟨l, n, htarget, hl⟩ }

end BoundedRegex
