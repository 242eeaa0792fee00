import BoundedRegex.Proofs.Code.Validation

/-!
# Loading with checked reads

`Checked.load` loads bytes as `Regex.ofBytes` does, but every read is checked: it has no value if it
comes to read a byte that is not there, to set or look at a mark beyond the table of marks, or to
look at an instruction that cannot be decoded.  `Checked.load_eq`: it always has a value, which is
what `Regex.ofBytes` gives.
-/

namespace BoundedRegex

namespace Checked

/-- The number of marks in the table. -/
def markCount : Nat := 0x8000

/-- The bytes from one offset up to another. -/
def slice (bytes : List UInt8) (first stop : Nat) : Option (List UInt8) :=
  if first ≤ stop ∧ stop ≤ bytes.length then some ((bytes.drop first).take (stop - first)) else none

/-! ### Code -/

section

variable (c : CodeContext)

/-- The mark at an address. -/
def mark (addr : Nat) : Option Bool :=
  if addr < markCount then c.starts[addr]? else none

/-- Whether an instruction starts at an address. -/
def isStart (addr : Nat) : Option Bool :=
  if addr < c.program.code.length then mark c addr else some false

/-- Whether the loop at `addr` can be run. -/
def loopIsSound (addr : Nat) (l : Loop) : Option Bool := do
  let body := Loop.body addr
  let after := l.after addr
  let bounded := l.max ≠ 0 && l.min ≠ unboundedCount && (l.max = unboundedCount || l.min ≤ l.max) &&
    !(l.keepsFrames && (l.singleByte || l.max = unboundedCount))
  if !bounded then return false
  if !(← isStart c body) then return false
  if !(← isStart c after) then return false
  let (i, size) ← c.program.fetch? body
  if l.singleByte then return i.isSingleByte && size = l.bodyLength.toNat
  let last := after - 4
  if last ≤ body then return false
  if !(← mark c last) then return false
  match ← c.program.fetch? last with
  | (.loopEnd offset, _) => return offsetTarget last offset = addr
  | _ => return false

/-- Whether the instruction at `addr` ends the iterations of the loop it goes back to. -/
def loopEndIsSound (addr : Nat) (offset : Int16) : Option Bool := do
  let target := offsetTarget addr offset
  if 0 ≤ offset then return false
  if !(← isStart c target) then return false
  match ← c.program.fetch? target with
  | (.loop l, _) => return !l.singleByte && l.after target = addr + 4
  | _ => return false

/-- Whether an instruction can be run. -/
def isSound (l : Located) : Option Bool :=
  match l.instr with
  | .split offset | .jump offset =>
    if offset ≤ 0 then some false else isStart c (offsetTarget l.addr offset)
  | .captureStart index | .captureEnd index => some (index.toNat < c.captures)
  | .loop loop => loopIsSound c l.addr loop
  | .loopEnd offset => loopEndIsSound c l.addr offset
  | _ => some true

/-- The offset of the first fault in instructions that end at `stop`.  Each of them is decoded
anew. -/
def firstFault (stop : Nat) : List Located → Option (Option Nat)
  | [] => some (some stop)
  | l :: rest => do
    let (i, size) ← c.program.fetch? l.addr
    if i = .accept then return rest.head?.map (·.addr)
    if ← isSound c ⟨l.addr, i, size⟩ then firstFault stop rest
    else return some l.addr

end

/-- The offset of the fault that makes a code unfit to be run, if it has one.  All the instructions
are marked. -/
def codeFault (code : List UInt8) (captures : Nat) : Option (Option Nat) :=
  match locate 0 code with
  | .error addr => some (some addr)
  | .ok located =>
    if ∀ l ∈ located, l.addr < markCount then
      firstFault ⟨Program.ofCode code, startMarks located, captures⟩ code.length located
    else none

/-- What a compiled pattern holds: its code, scratch depth, captures and their bits. -/
abbrev Parts : Type := List UInt8 × UInt16 × UInt8 × Nat

/-- Loads a compiled pattern. -/
def load (bytes : List UInt8) : Option (Except LoadError Parts) := do
  if bytes.length < fixedHeaderLength then return .error .invalidFormat
  if (← slice bytes 0 3) ≠ magic then return .error .invalidFormat
  let version ← bytes[3]?
  if version ≠ formatVersion then return .error (.unsupportedVersion version)
  let codeLength := LittleEndian.decode [← bytes[4]?, ← bytes[5]?]
  if maxCodeLength < codeLength then return .error .invalidFormat
  let captures ← bytes[8]?
  let first := headerLength captures.toNat
  if bytes.length ≠ first + codeLength then return .error .invalidFormat
  let code ← slice bytes first bytes.length
  match ← codeFault code captures.toNat with
  | some offset => return .error (.invalidCode offset)
  | none =>
    let depth := LittleEndian.decode [← bytes[6]?, ← bytes[7]?]
    let bits ← slice bytes fixedHeaderLength first
    return .ok (code, UInt16.ofNat depth, captures, LittleEndian.decode bits)

/-! ### The reads are in range -/

/-- Every address of the code has its mark, and an instruction can be decoded where it is set. -/
structure Covered (c : CodeContext) : Prop where
  size_eq : c.starts.size = c.program.code.length
  length_le : c.program.code.length ≤ maxCodeLength
  decodes {a : Nat} : c.isStart a = true → ∃ i size, c.program.fetch? a = some (i, size)

variable {c : CodeContext}

theorem Covered.mark_eq (h : Covered c) {a : Nat} (ha : a < c.program.code.length) :
    mark c a = some (c.isStart a) := by
  have hlt : a < markCount := Nat.lt_of_lt_of_le ha (Nat.le_trans h.length_le (by decide))
  have hsize : a < c.starts.size := h.size_eq ▸ ha
  rw [mark, if_pos hlt, CodeContext.isStart, Array.getD_eq_getD_getElem?,
    Array.getElem?_eq_getElem hsize, Option.getD_some]

theorem Covered.isStart_eq (h : Covered c) (a : Nat) : isStart c a = some (c.isStart a) := by
  rw [isStart]
  split
  · next ha => exact h.mark_eq ha
  · next ha =>
    rw [CodeContext.isStart, Array.getD_eq_getD_getElem?,
      Array.getElem?_eq_none (by rw [h.size_eq]; omega), Option.getD_none]

theorem Covered.lt_of_isStart (h : Covered c) {a : Nat} (ha : c.isStart a = true) :
    a < c.program.code.length := by
  rcases Nat.lt_or_ge a c.starts.size with hlt | hge
  · exact h.size_eq ▸ hlt
  · rw [CodeContext.isStart, Array.getD_eq_getD_getElem?, Array.getElem?_eq_none hge,
      Option.getD_none] at ha
    cases ha

theorem Covered.loopIsSound_eq (h : Covered c) (addr : Nat) (l : Loop) :
    loopIsSound c addr l = some (c.loopIsSound addr l) := by
  unfold loopIsSound CodeContext.loopIsSound
  extract_lets body after bounded last
  simp only [h.isStart_eq]
  change _ = some (bounded && c.isStart body && c.isStart after && _)
  cases bounded with
  | false => rfl
  | true =>
    cases hbody : c.isStart body with
    | false => rfl
    | true =>
      cases hafter : c.isStart after with
      | false => rfl
      | true =>
        obtain ⟨i, size, hi⟩ := h.decodes hbody
        have hlast : after - 4 = last := rfl
        rw [hi, hlast]
        cases hsingle : l.singleByte with
        | true => simp
        | false =>
          by_cases hlt : body < last
          · have hin : last < c.program.code.length :=
              Nat.lt_of_le_of_lt (Nat.sub_le ..) (h.lt_of_isStart hafter)
            cases hmark : c.isStart last with
            | false => simp [h.mark_eq hin, hmark, hlt]
            | true =>
              obtain ⟨j, n, hj⟩ := h.decodes hmark
              have hle : ¬ last ≤ body := Nat.not_le.2 hlt
              simp only [h.mark_eq hin, hmark, hj]
              cases j <;> simp [hle, hlt]
          · have hle : last ≤ body := Nat.le_of_not_lt hlt
            simp [hle, hlt]

theorem Covered.loopEndIsSound_eq (h : Covered c) (addr : Nat) (offset : Int16) :
    loopEndIsSound c addr offset = some (c.loopEndIsSound addr offset) := by
  unfold loopEndIsSound CodeContext.loopEndIsSound
  extract_lets target
  simp only [h.isStart_eq]
  by_cases hoffset : offset < 0
  · have hge : ¬ 0 ≤ offset := Int16.not_le.2 hoffset
    cases htarget : c.isStart target with
    | false => simp [hge]
    | true =>
      obtain ⟨i, size, hi⟩ := h.decodes htarget
      cases i <;> simp [hge, hoffset, hi]
  · have hge : 0 ≤ offset := Int16.not_lt.1 hoffset
    simp [hge, hoffset]

theorem Covered.isSound_eq (h : Covered c) (l : Located) : isSound c l = some (c.isSound l) := by
  unfold isSound CodeContext.isSound
  have hforward (offset : Int16) :
      (if offset ≤ 0 then some false else isStart c (offsetTarget l.addr offset)) =
        some (0 < offset && c.isStart (offsetTarget l.addr offset)) := by
    by_cases hoffset : offset ≤ 0
    · simp [hoffset, Int16.not_lt.2 hoffset]
    · simp [hoffset, Int16.not_le.1 hoffset, h.isStart_eq]
  cases l.instr with
  | split offset | jump offset => exact hforward offset
  | captureStart | captureEnd => rfl
  | loop loop => exact h.loopIsSound_eq l.addr loop
  | loopEnd offset => exact h.loopEndIsSound_eq l.addr offset
  | _ => rfl

theorem Covered.firstFault_eq (h : Covered c) {addr stop : Nat} {located : List Located}
    (hchain : Located.Chain c.program addr located) :
    firstFault c stop located = some (c.firstFault stop located) := by
  induction hchain with
  | nil => rfl
  | @cons l rest hf _ ih =>
    rw [firstFault, CodeContext.firstFault, hf]
    by_cases haccept : l.instr = .accept
    · simp [haccept]
    · have hl : (⟨l.addr, l.instr, l.size⟩ : Located) = l := rfl
      cases hsound : c.isSound l <;> simp [h.isSound_eq, ih, hl, hsound, haccept]

end Checked

theorem Located.Chain.covered {code : List UInt8} {located : List Located} {captures : Nat}
    (h : Located.Chain (Program.ofCode code) 0 located) (hlen : code.length ≤ maxCodeLength) :
    Checked.Covered ⟨Program.ofCode code, startMarks located, captures⟩ where
  size_eq := by rw [size_startMarks h]; rfl
  length_le := hlen
  decodes := fun {a} ha => by
    obtain ⟨l, hl, rfl⟩ := h.exists_of_starts ((CodeContext.isStart_iff h rfl a).1 ha)
    exact ⟨_, _, (h.of_mem hl).1⟩

namespace Checked

theorem codeFault_eq {code : List UInt8} (hlen : code.length ≤ maxCodeLength) (captures : Nat) :
    codeFault code captures = some (codeFault? code captures) := by
  rw [codeFault, codeFault?]
  cases hlocate : locate 0 code with
  | error addr => rfl
  | ok located =>
    have hchain : Located.Chain (Program.ofCode code) 0 located :=
      locate_chain (Nat.zero_le _) hlocate
    have hmarks : ∀ l ∈ located, l.addr < markCount := fun l hl => by
      have hlt : l.addr < code.length := (hchain.starts (fun hlt => .zero hlt) hl).lt
      exact Nat.lt_of_lt_of_le hlt (Nat.le_trans hlen (by decide))
    dsimp only
    rw [if_pos hmarks]
    exact (hchain.covered hlen).firstFault_eq hchain

theorem getElem?_eq_getD {bytes : List UInt8} {i : Nat} (h : i < bytes.length) :
    bytes[i]? = some (bytes.getD i 0) := by
  rw [List.getD_eq_getElem?_getD, List.getElem?_eq_getElem h, Option.getD_some]

theorem pair_eq {bytes : List UInt8} {i : Nat} (h : i + 1 < bytes.length) :
    (bytes.drop i).take 2 = [bytes.getD i 0, bytes.getD (i + 1) 0] := by
  simp only [List.getD_eq_getElem?_getD, List.getElem?_eq_getElem h,
    List.getElem?_eq_getElem (Nat.lt_of_succ_lt h), Option.getD_some]
  rw [List.drop_eq_getElem_cons (Nat.lt_of_succ_lt h), List.drop_eq_getElem_cons h]
  rfl

theorem slice_eq {bytes : List UInt8} {first stop : Nat} (h : first ≤ stop)
    (hstop : stop ≤ bytes.length) :
    slice bytes first stop = some ((bytes.drop first).take (stop - first)) :=
  if_pos ⟨h, hstop⟩

/-- **Loading fails no read.** -/
theorem load_eq (bytes : List UInt8) :
    load bytes = some ((Regex.ofBytes bytes).map fun r =>
      (r.code, r.scratchDepth, r.captures, r.loopBound)) := by
  unfold load Regex.ofBytes
  extract_lets captures codeLength bits code
  by_cases hshort : bytes.length < fixedHeaderLength
  · simp [hshort, Except.map]
  have hlength : 9 ≤ bytes.length := Nat.le_of_not_lt hshort
  have hmagic : slice bytes 0 3 = some (bytes.take 3) := slice_eq (Nat.zero_le 3) (by omega)
  have hcaptures : bytes[8]? = some captures := getElem?_eq_getD (by omega)
  have hn : LittleEndian.decode [bytes.getD 4 0, bytes.getD 5 0] = codeLength :=
    congrArg LittleEndian.decode (pair_eq (by omega)).symm
  have hdepth : [bytes.getD 6 0, bytes.getD 7 0] = (bytes.drop 6).take 2 :=
    (pair_eq (by omega)).symm
  simp (disch := omega) only [hmagic, hcaptures, getElem?_eq_getD, hshort, if_false, false_or,
    Option.bind_eq_bind, Option.bind_some, Option.pure_def, hn, hdepth]
  by_cases hm : bytes.take 3 ≠ magic
  · rw [if_pos hm, if_pos hm]
    rfl
  by_cases hv : bytes.getD 3 0 ≠ formatVersion
  · rw [if_neg hm, if_neg hm, if_pos hv, if_pos hv]
    rfl
  rw [if_neg hm, if_neg hm, if_neg hv, if_neg hv]
  by_cases hlt : maxCodeLength < codeLength
  · rw [if_pos hlt, dif_neg fun h => Nat.not_lt.2 h.1 hlt]
    rfl
  by_cases htotal : bytes.length ≠ headerLength captures.toNat + codeLength
  · rw [if_neg hlt, if_pos htotal, dif_neg fun h => htotal h.2]
    rfl
  have hle : codeLength ≤ maxCodeLength := Nat.le_of_not_lt hlt
  have htotal' : bytes.length = headerLength captures.toNat + codeLength :=
    Decidable.not_not.1 htotal
  have hcode : slice bytes (headerLength captures.toNat) bytes.length = some code := by
    rw [slice_eq (by omega) (Nat.le_refl _), List.take_of_length_le (by simp)]
  have hbits : slice bytes fixedHeaderLength (headerLength captures.toNat) = some bits := by
    have hle : fixedHeaderLength ≤ headerLength captures.toNat := Nat.le_add_right ..
    have hheader : headerLength captures.toNat - fixedHeaderLength =
        captureBytes captures.toNat := Nat.add_sub_cancel_left ..
    rw [slice_eq hle (by omega), hheader]
  have hfault : codeFault code captures.toNat = some (codeFault? code captures.toNat) :=
    codeFault_eq (by rw [List.length_drop]; omega) captures.toNat
  rw [if_neg hlt, if_neg htotal, dif_pos ⟨hle, htotal'⟩, hcode, Option.bind_some, hfault,
    Option.bind_some, hbits]
  cases codeFault? code captures.toNat <;> rfl

end Checked

end BoundedRegex
