import BoundedRegex.Proofs.Code.Admission
import BoundedRegex.Proofs.Code.Encoding

/-!
# The bytes of a compiled pattern

A compiled pattern whose code has no fault is loaded from its own bytes
(`Regex.ofBytes_toBytes`), and from no others (`Regex.ofBytes_eq_ok_iff`).
-/

namespace BoundedRegex

/-- Reading goes on behind an instruction that can be decoded. -/
theorem locate_cons {addr size : Nat} {b : UInt8} {rest : List UInt8} {i : Instr}
    {located : List Located} (hi : Instr.decode? (b :: rest) = some (i, size))
    (h : locate (addr + size) (rest.drop (size - 1)) = .ok located) :
    locate addr (b :: rest) = .ok (⟨addr, i, size⟩ :: located) := by
  rw [locate, hi]
  dsimp only
  rw [h]

theorem locate_nil (addr : Nat) : locate addr [] = .ok [] := by
  rw [locate]

/-- Code that can be read and whose instructions have no fault has none. -/
theorem codeFault?_of_locate {code : List UInt8} {captures : Nat} {located : List Located}
    (h : locate 0 code = .ok located)
    (hfault : CodeContext.firstFault ⟨Program.ofCode code, startMarks located, captures⟩ code.length
      located = none) : codeFault? code captures = none := by
  rw [codeFault?, h]
  exact hfault

theorem magic_eq : magic = [0x42, 0x52, 0x58] := by
  decide +kernel

theorem Regex.toBytes_eq (r : Regex) :
    r.toBytes = 0x42 :: 0x52 :: 0x58 :: formatVersion ::
      (LittleEndian.encode 2 r.code.length ++ (LittleEndian.encode 2 r.scratchDepth.toNat ++
        (r.captures ::
          (LittleEndian.encode (captureBytes r.captures.toNat) r.loopBound ++ r.code)))) := by
  rw [toBytes, header, magic_eq]
  simp only [List.append_assoc, List.cons_append, List.nil_append]

/-- What a reader of the bytes finds where the format says it is. -/
structure Regex.ReadsAs (r : Regex) (bytes : List UInt8) : Prop where
  magic : bytes.take 3 = magic
  version : bytes.getD 3 0 = formatVersion
  codeLength : LittleEndian.decode ((bytes.drop 4).take 2) = r.code.length
  scratchDepth : UInt16.ofNat (LittleEndian.decode ((bytes.drop 6).take 2)) = r.scratchDepth
  captures : bytes.getD 8 0 = r.captures
  loopBound : LittleEndian.decode
    ((bytes.drop fixedHeaderLength).take (captureBytes r.captures.toNat)) = r.loopBound
  code : bytes.drop (headerLength r.captures.toNat) = r.code
  length : bytes.length = headerLength r.captures.toNat + r.code.length

theorem Regex.readsAs_toBytes (r : Regex) : r.ReadsAs r.toBytes := by
  obtain ⟨dlo, dhi, hdepth, hdepth'⟩ := Instr.lengthBytes_eq r.scratchDepth
  obtain ⟨llo, lhi, hlength⟩ : ∃ lo hi, LittleEndian.encode 2 r.code.length = [lo, hi] :=
    ⟨_, _, rfl⟩
  have hlength' : LittleEndian.decode [llo, lhi] = r.code.length := by
    have hmod : r.code.length % Nat.pow 256 2 = r.code.length :=
      Nat.mod_eq_of_lt (Nat.lt_of_le_of_lt r.code_le (by decide))
    rw [← hlength, LittleEndian.decode_encode, hmod]
  have hbits : LittleEndian.decode
      (LittleEndian.encode (captureBytes r.captures.toNat) r.loopBound) = r.loopBound := by
    rw [LittleEndian.decode_encode, Nat.mod_eq_of_lt r.loopBound_lt]
  have hbitsLength := LittleEndian.length_encode (captureBytes r.captures.toNat) r.loopBound
  rw [r.toBytes_eq, hdepth, hlength]
  generalize LittleEndian.encode (captureBytes r.captures.toNat) r.loopBound = bits at *
  exact {
    magic := magic_eq.symm
    version := rfl
    codeLength := hlength'
    scratchDepth := hdepth'
    captures := rfl
    loopBound := by
      rw [← hbitsLength]
      exact (congrArg LittleEndian.decode List.take_left).trans hbits
    code := by
      rw [headerLength, ← List.drop_drop, ← hbitsLength]
      exact List.drop_left
    length := by
      simp only [List.cons_append, List.nil_append, List.length_cons, List.length_append,
        hbitsLength, headerLength, fixedHeaderLength]
      omega }

/-- **A compiled pattern without a fault is loaded from its bytes.** -/
theorem Regex.ofBytes_toBytes (r : Regex) (h : codeFault? r.code r.captures.toNat = none) :
    Regex.ofBytes r.toBytes = .ok r := by
  have hreads := r.readsAs_toBytes
  generalize r.toBytes = bytes at hreads
  have hlong : ¬(bytes.length < fixedHeaderLength ∨ bytes.take 3 ≠ magic) := by
    rintro (hshort | hmagic)
    · have := hreads.length
      rw [headerLength] at this
      omega
    · exact hmagic hreads.magic
  unfold ofBytes
  simp only [hreads.captures, hreads.code, hreads.codeLength, hreads.scratchDepth,
    hreads.loopBound, h]
  rw [if_neg hlong, if_neg (not_not_intro hreads.version), dif_pos ⟨r.code_le, hreads.length⟩]

theorem exists_header {bytes : List UInt8} (h : fixedHeaderLength ≤ bytes.length) :
    ∃ m₀ m₁ m₂ version l₀ l₁ d₀ d₁ captures rest,
      bytes = m₀ :: m₁ :: m₂ :: version :: l₀ :: l₁ :: d₀ :: d₁ :: captures :: rest := by
  rcases bytes with - | ⟨m₀, - | ⟨m₁, - | ⟨m₂, - | ⟨version, - | ⟨l₀, - | ⟨l₁, - | ⟨d₀, - |
    ⟨d₁, - | ⟨captures, rest⟩⟩⟩⟩⟩⟩⟩⟩⟩
  iterate 9 exact absurd h (by simp [fixedHeaderLength])
  exact ⟨m₀, m₁, m₂, version, l₀, l₁, d₀, d₁, captures, rest, rfl⟩

/-- The bytes of a header and of the code behind it. -/
theorem Regex.toBytes_of_parts {r : Regex} {l₀ l₁ d₀ d₁ : UInt8} {rest : List UInt8}
    (hlength : LittleEndian.decode [l₀, l₁] = r.code.length)
    (hdepth : UInt16.ofNat (LittleEndian.decode [d₀, d₁]) = r.scratchDepth)
    (hbits : LittleEndian.decode (rest.take (captureBytes r.captures.toNat)) = r.loopBound)
    (hcode : rest.drop (captureBytes r.captures.toNat) = r.code)
    (hrest : captureBytes r.captures.toNat ≤ rest.length) :
    r.toBytes =
      0x42 :: 0x52 :: 0x58 :: formatVersion :: l₀ :: l₁ :: d₀ :: d₁ :: r.captures :: rest := by
  have hl : LittleEndian.encode 2 r.code.length = [l₀, l₁] := by
    rw [← hlength]
    exact LittleEndian.encode_decode [l₀, l₁]
  have hd : LittleEndian.encode 2 r.scratchDepth.toNat = [d₀, d₁] := by
    have hlt : LittleEndian.decode [d₀, d₁] < UInt16.size :=
      Nat.lt_of_lt_of_le (LittleEndian.decode_lt [d₀, d₁]) (by decide : Nat.pow 256 2 ≤ UInt16.size)
    rw [← hdepth, UInt16.toNat_ofNat_of_lt' hlt]
    exact LittleEndian.encode_decode [d₀, d₁]
  have hb : LittleEndian.encode (captureBytes r.captures.toNat) r.loopBound =
      rest.take (captureBytes r.captures.toNat) := by
    have hencode := LittleEndian.encode_decode (rest.take (captureBytes r.captures.toNat))
    rwa [List.length_take, Nat.min_eq_left hrest, hbits] at hencode
  rw [r.toBytes_eq, hl, hd, hb, ← hcode, List.take_append_drop]
  rfl

/-- **A compiled pattern is loaded from its own bytes and from no others**, if its code is
admissible. -/
theorem Regex.ofBytes_eq_ok_iff {bytes : List UInt8} {r : Regex} :
    Regex.ofBytes bytes = .ok r ↔
      r.toBytes = bytes ∧ (Program.ofCode r.code).Admissible r.captures.toNat := by
  constructor
  · intro h
    unfold ofBytes at h
    extract_lets captures codeLength bits code at h
    split at h
    · cases h
    · next hheader =>
      split at h
      · cases h
      · next hversion =>
        split at h
        · next hlen =>
          split at h
          · cases h
          · next hfault =>
            cases h
            refine ⟨?_, codeFault?_eq_none_iff.1 hfault⟩
            obtain ⟨hlong, hmagic⟩ := not_or.1 hheader
            obtain ⟨m₀, m₁, m₂, version, l₀, l₁, d₀, d₁, n, rest, rfl⟩ :=
              exists_header (Nat.le_of_not_lt hlong)
            obtain ⟨rfl, rfl, rfl⟩ : m₀ = 0x42 ∧ m₁ = 0x52 ∧ m₂ = 0x58 := by
              simpa [magic_eq] using hmagic
            obtain rfl : version = formatVersion := Decidable.not_not.1 hversion
            have hrest : rest.length + 9 = headerLength n.toNat + codeLength := hlen.2
            have hcode : code = rest.drop (captureBytes n.toNat) := by
              show (_ :: _).drop (headerLength n.toNat) = _
              rw [headerLength, ← List.drop_drop]
              rfl
            rw [headerLength, fixedHeaderLength] at hrest
            have hle : captureBytes n.toNat ≤ rest.length := by omega
            refine toBytes_of_parts ?_ rfl rfl hcode.symm hle
            show codeLength = code.length
            rw [hcode, List.length_drop]
            omega
        · cases h
  · rintro ⟨rfl, hadmissible⟩
    exact ofBytes_toBytes r (codeFault?_eq_none_iff.2 hadmissible)

end BoundedRegex
