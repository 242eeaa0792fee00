import BoundedRegex.Regex.Load

/-!
# Reading the code of a program

Code is read one instruction after another, from address 0 on; `Program.Starts p a` says that an
instruction starts at `a` when `p` is read like that.

* `Located.Chain`: the instructions that `locate` gives follow one another up to the end of the
  code (`locate_eq_ok_iff`), so the addresses that `startMarks` marks are those at which
  instructions start (`CodeContext.isStart_iff`).
* `Program.Sound`: what a machine relies on.  Wherever an instruction starts one can be fetched;
  behind it another one starts, unless it accepts; and jumps, loops and the ends of iterations
  lead to starts of instructions.
-/

namespace BoundedRegex

/-- An instruction that can be read takes some bytes of the text, and no more than there are. -/
theorem Instr.size_of_decode? {text : List UInt8} {i : Instr} {size : Nat}
    (h : decode? text = some (i, size)) : 0 < size ∧ size ≤ text.length := by
  unfold decode? at h
  split at h
  · cases h
  · split at h
    · unfold decodeOpcode? at h
      split at h
      all_goals first
        | (cases h; simp only [List.length_cons, Loop.size]; omega)
        | (split at h
           · cases h; simp only [List.length_cons]; omega
           · cases h)
        | cases h
    · cases h
      simp only [List.length_cons]
      omega

/-- The instructions around the body of a loop are of one size each. -/
theorem Instr.size_of_decode?_loop {text : List UInt8} {i : Instr} {size : Nat}
    (h : decode? text = some (i, size)) :
    (∀ l, i = .loop l → size = Loop.size) ∧ ∀ offset, i = .loopEnd offset → size = 4 := by
  unfold decode? at h
  split at h
  · cases h
  · split at h
    · unfold decodeOpcode? at h
      split at h
      all_goals first
        | (cases h; refine ⟨fun _ hi => ?_, fun _ hi => ?_⟩ <;> cases hi <;> rfl)
        | (split at h
           · cases h; refine ⟨fun _ hi => ?_, fun _ hi => ?_⟩ <;> cases hi
           · cases h)
        | cases h
    · cases h
      refine ⟨fun _ hi => ?_, fun _ hi => ?_⟩ <;> cases hi

/-- An instruction starts at an address when the code is read from its start. -/
inductive Program.Starts (p : Program) : Nat → Prop where
  | zero (h : 0 < p.code.length) : Starts p 0
  | next {a : Nat} {i : Instr} {size : Nat} (h : Starts p a) (hf : p.fetch? a = some (i, size))
      (hlt : a + size < p.code.length) : Starts p (a + size)

theorem Program.length_of_fetch? {p : Program} {a : Nat} {i : Instr} {size : Nat}
    (h : p.fetch? a = some (i, size)) : 0 < size ∧ a + size ≤ p.code.length := by
  rw [p.fetch?_eq] at h
  have hsize := Instr.size_of_decode? h
  rw [List.length_drop] at hsize
  omega

theorem Program.size_of_loop {p : Program} {a size : Nat} {l : Loop}
    (h : p.fetch? a = some (.loop l, size)) : size = Loop.size :=
  (Instr.size_of_decode?_loop (p.fetch?_eq a ▸ h)).1 l rfl

theorem Program.size_of_loopEnd {p : Program} {a size : Nat} {offset : Int16}
    (h : p.fetch? a = some (.loopEnd offset, size)) : size = 4 :=
  (Instr.size_of_decode?_loop (p.fetch?_eq a ▸ h)).2 offset rfl

theorem Program.Starts.lt {p : Program} {a : Nat} (h : p.Starts a) : a < p.code.length := by
  cases h with
  | zero h => exact h
  | next _ _ hlt => exact hlt

/-! ### Reading the code -/

/-- Instructions that follow one another from an address up to the end of the code. -/
inductive Located.Chain (p : Program) : Nat → List Located → Prop where
  | nil : Chain p p.code.length []
  | cons {l : Located} {rest : List Located} (hf : p.fetch? l.addr = some (l.instr, l.size))
      (h : Chain p (l.addr + l.size) rest) : Chain p l.addr (l :: rest)

theorem drop_add_of_cons {code rest : List UInt8} {b : UInt8} {addr size : Nat}
    (h : code.drop addr = b :: rest) (hsize : 0 < size) :
    code.drop (addr + size) = rest.drop (size - 1) := by
  obtain ⟨n, rfl⟩ : ∃ n, size = n + 1 := ⟨size - 1, by omega⟩
  rw [← List.drop_drop, h]
  rfl

theorem locate_chain {p : Program} {addr : Nat} (haddr : addr ≤ p.code.length)
    {located : List Located} (h : locate addr (p.code.drop addr) = .ok located) :
    Located.Chain p addr located := by
  generalize htext : p.code.drop addr = text at h
  induction addr, text using locate.induct generalizing located with
  | case1 addr =>
    have hend : addr = p.code.length :=
      Nat.le_antisymm haddr (List.drop_eq_nil_iff.1 htext)
    rw [locate] at h
    cases h
    rw [hend]
    exact .nil
  | case2 addr b rest hnone =>
    rw [locate, hnone] at h
    cases h
  | case3 addr b rest i size hsome tail htail ih =>
    have hfetch : p.fetch? addr = some (i, size) := by rw [p.fetch?_eq, htext, hsome]
    obtain ⟨hpos, hle⟩ := Program.length_of_fetch? hfetch
    rw [locate, hsome] at h
    dsimp only at h
    rw [htail] at h
    cases h
    exact .cons (l := ⟨addr, i, size⟩) hfetch (ih hle (drop_add_of_cons htext hpos) htail)
  | case4 addr b rest i size hsome e herror =>
    rw [locate, hsome] at h
    dsimp only at h
    rw [herror] at h
    cases h

/-- Instructions that follow one another up to the end of the code are those that are read. -/
theorem locate_of_chain {p : Program} {addr : Nat} {located : List Located}
    (h : Located.Chain p addr located) : locate addr (p.code.drop addr) = .ok located := by
  induction h with
  | nil => rw [List.drop_length, locate]
  | @cons l rest hf _ ih =>
    have hsize := Program.length_of_fetch? hf
    rw [p.fetch?_eq] at hf
    cases htext : p.code.drop l.addr with
    | nil => rw [htext] at hf; cases hf
    | cons b tail =>
      rw [htext] at hf
      rw [drop_add_of_cons htext hsize.1] at ih
      rw [locate, hf]
      dsimp only
      rw [ih]

theorem locate_eq_ok_iff {p : Program} {addr : Nat} (haddr : addr ≤ p.code.length)
    {located : List Located} :
    locate addr (p.code.drop addr) = .ok located ↔ Located.Chain p addr located :=
  ⟨locate_chain haddr, locate_of_chain⟩

namespace Located.Chain

variable {p : Program} {addr : Nat} {located : List Located}

/-- A chain from within the code has an instruction where it begins. -/
theorem head (h : Chain p addr located) (hlt : addr < p.code.length) :
    ∃ l ∈ located, l.addr = addr := by
  cases h with
  | nil => exact absurd hlt (Nat.lt_irrefl _)
  | @cons l _ _ _ => exact ⟨l, List.mem_cons_self .., rfl⟩

/-- A chain of no instructions begins at the end of the code, and no other one does. -/
theorem eq_length (h : Chain p addr []) : addr = p.code.length := by
  cases h
  rfl

theorem eq_nil (h : Chain p p.code.length located) : located = [] := by
  generalize hend : p.code.length = stop at h
  cases h with
  | nil => rfl
  | cons hf _ =>
    have hsize := Program.length_of_fetch? hf
    omega

theorem le_addr (h : Chain p addr located) {l : Located} (hl : l ∈ located) : addr ≤ l.addr := by
  induction h with
  | nil => cases hl
  | cons _ _ ih =>
    rcases List.mem_cons.1 hl with rfl | hl
    · exact Nat.le_refl _
    · exact Nat.le_trans (Nat.le_add_right ..) (ih hl)

/-- Every instruction of a chain is the one that is fetched at its address, and is followed by
another, unless the code ends with it. -/
theorem of_mem (h : Chain p addr located) {l : Located} (hl : l ∈ located) :
    p.fetch? l.addr = some (l.instr, l.size) ∧
      (l.addr + l.size < p.code.length → ∃ l' ∈ located, l'.addr = l.addr + l.size) := by
  induction h with
  | nil => cases hl
  | cons hf h ih =>
    rcases List.mem_cons.1 hl with rfl | hl
    · refine ⟨hf, ?_⟩
      intro hlt
      obtain ⟨l', hl', haddr⟩ := h.head hlt
      exact ⟨l', List.mem_cons_of_mem _ hl', haddr⟩
    · obtain ⟨hfetch, hnext⟩ := ih hl
      refine ⟨hfetch, ?_⟩
      intro hlt
      obtain ⟨l', hl', haddr⟩ := hnext hlt
      exact ⟨l', List.mem_cons_of_mem _ hl', haddr⟩

/-- The instructions of a chain start where an instruction starts, if the first does. -/
theorem starts (h : Chain p addr located) (hstart : addr < p.code.length → p.Starts addr)
    {l : Located} (hl : l ∈ located) : p.Starts l.addr := by
  induction h with
  | nil => cases hl
  | cons hf _ ih =>
    have hle := Program.length_of_fetch? hf
    rcases List.mem_cons.1 hl with rfl | hl
    · exact hstart (by omega)
    · exact ih (fun hlt => .next (hstart (by omega)) hf hlt) hl

/-- Where an instruction starts, the chain of the whole code has one. -/
theorem exists_of_starts (h : Chain p 0 located) {a : Nat} (ha : p.Starts a) :
    ∃ l ∈ located, l.addr = a := by
  induction ha with
  | zero hlt => exact h.head hlt
  | next _ hf hlt ih =>
    obtain ⟨l, hl, rfl⟩ := ih
    obtain ⟨hfetch, hnext⟩ := h.of_mem hl
    cases hf.symm.trans hfetch
    exact hnext hlt

end Located.Chain

/-! ### Marks -/

@[simp] theorem startMarks_nil : startMarks [] = #[] := rfl

theorem size_startMarks {p : Program} {addr : Nat} {located : List Located}
    (h : Located.Chain p addr located) : (startMarks located).size = p.code.length - addr := by
  induction h with
  | nil => simp
  | @cons l rest hf h ih =>
    have hsize := Program.length_of_fetch? hf
    simp only [startMarks, List.flatMap_cons, List.size_toArray, List.length_append,
      List.length_cons, List.length_replicate] at ih ⊢
    omega

/-- The marks of a chain are set at the addresses of its instructions. -/
theorem startMarks_eq_true {p : Program} {addr : Nat} {located : List Located}
    (h : Located.Chain p addr located) (k : Nat) :
    (startMarks located)[k]? = some true ↔ ∃ l ∈ located, l.addr = addr + k := by
  induction h generalizing k with
  | nil => simp
  | @cons l rest hf h ih =>
    obtain ⟨hpos, -⟩ := Program.length_of_fetch? hf
    obtain ⟨n, hn⟩ : ∃ n, l.size = n + 1 := ⟨l.size - 1, by omega⟩
    have hmarks : (startMarks (l :: rest))[k]? =
        (true :: (List.replicate n false ++ (startMarks rest).toList))[k]? := by
      simp [startMarks, hn]
    rw [hmarks]
    rcases k with - | k
    · simp
    · rw [List.getElem?_cons_succ]
      rcases Nat.lt_or_ge k n with hk | hk
      · -- Within the first instruction nothing is marked, and no other one starts.
        rw [List.getElem?_append_left (by simpa using hk), List.getElem?_replicate_of_lt hk]
        refine ⟨nofun, ?_⟩
        rintro ⟨l', hl', haddr⟩
        rcases List.mem_cons.1 hl' with rfl | hl'
        · omega
        · have := h.le_addr hl'
          omega
      · -- Behind it the marks are those of the rest.
        have hshift : l.addr + l.size + (k - n) = l.addr + (k + 1) := by omega
        have hrest := ih (k - n)
        rw [hshift] at hrest
        rw [List.getElem?_append_right (by simpa using hk), List.length_replicate,
          Array.getElem?_toList, hrest]
        refine ⟨fun ⟨l', hl', haddr⟩ => ⟨l', List.mem_cons_of_mem _ hl', haddr⟩, ?_⟩
        rintro ⟨l', hl', haddr⟩
        rcases List.mem_cons.1 hl' with rfl | hl'
        · omega
        · exact ⟨l', hl', haddr⟩

/-! ### What a machine relies on -/

/-- What a machine relies on. -/
structure Program.Sound (p : Program) : Prop where
  zero : p.Starts 0
  /-- Where an instruction starts, it can be fetched. -/
  fetch {a : Nat} (h : p.Starts a) : ∃ i size, p.fetch? a = some (i, size)
  next {a : Nat} {i : Instr} {size : Nat} (h : p.Starts a) (hf : p.fetch? a = some (i, size))
    (hi : i ≠ .accept) : p.Starts (a + size)
  split {a : Nat} {offset : Int16} {size : Nat} (h : p.Starts a)
    (hf : p.fetch? a = some (.split offset, size)) :
    a < offsetTarget a offset ∧ p.Starts (offsetTarget a offset)
  jump {a : Nat} {offset : Int16} {size : Nat} (h : p.Starts a)
    (hf : p.fetch? a = some (.jump offset, size)) :
    a < offsetTarget a offset ∧ p.Starts (offsetTarget a offset)
  loop {a : Nat} {l : Loop} {size : Nat} (h : p.Starts a) (hf : p.fetch? a = some (.loop l, size)) :
    p.Starts (Loop.body a) ∧ p.Starts (l.after a) ∧ (l.keepsFrames = true → l.singleByte = false)
  /-- The end of an iteration goes back to a loop, behind which it is the last instruction. -/
  loopEnd {a : Nat} {offset : Int16} {size : Nat} (h : p.Starts a)
    (hf : p.fetch? a = some (.loopEnd offset, size)) :
    ∃ l n, p.Starts (offsetTarget a offset) ∧
      p.fetch? (offsetTarget a offset) = some (.loop l, n) ∧ l.singleByte = false ∧
      l.after (offsetTarget a offset) = a + 4

namespace CodeContext

variable {c : CodeContext} {located : List Located}

theorem isStart_iff (h : Located.Chain c.program 0 located) (hc : c.starts = startMarks located)
    (a : Nat) : c.isStart a = true ↔ c.program.Starts a := by
  have hmark : c.isStart a = true ↔ (startMarks located)[a]? = some true := by
    rw [isStart, hc, Array.getD_eq_getD_getElem?]
    cases (startMarks located)[a]? with
    | none => simp
    | some b => simp
  rw [hmark, startMarks_eq_true h a, Nat.zero_add]
  refine ⟨?_, h.exists_of_starts⟩
  rintro ⟨l, hl, rfl⟩
  exact h.starts (fun hlt => .zero hlt) hl

end CodeContext

/-- A positive offset leads forward: within the code addresses do not wrap. -/
theorem lt_offsetTarget {addr : Nat} {offset : Int16} (h : 0 < offset)
    (haddr : addr ≤ maxCodeLength) : addr < offsetTarget addr offset := by
  have hpos : 0 < offset.toInt := by simpa [Int16.lt_iff_toInt_lt] using h
  have hlt := offset.toInt_lt
  rw [maxCodeLength] at haddr
  rw [offsetTarget, Int.emod_eq_of_lt (by omega) (by omega)]
  omega

end BoundedRegex
