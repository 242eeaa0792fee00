import BoundedRegex.Cli.Program
import BoundedRegex.Proofs.Limited

/-!
# The room that is set for code

The program compiles into a buffer that has room for as much code as is set, and for the longest
header.  The header that is written takes no more, so code within the setting always has its room;
what the header leaves goes to the code, which may then be longer than is set
(`Cli.compilePattern_capacity`).
-/

namespace BoundedRegex

namespace Regex

/-- A compiled pattern takes no more than its code and the longest header. -/
theorem length_toBytes_le_add (r : Regex) : r.toBytes.length ≤ r.code.length + maxHeaderLength := by
  have hcaptures := r.captures.toNat_lt
  rw [r.readsAs_toBytes.length, headerLength, maxHeaderLength, captureBytes]
  omega

/-- The bound on buffers of zeros keeps no compiled pattern out. -/
theorem le_length_blankBuffer (r : Regex) (size : Nat) :
    r.toBytes.length ≤ (blankBuffer size).length ↔ r.toBytes.length ≤ size := by
  have hbytes := r.length_toBytes_le_add
  have hcode := r.code_le
  rw [blankBuffer, List.length_replicate, Nat.le_min]
  exact and_iff_left (by omega)

/-- The bits of the captures are all that the header can take from the room for code. -/
theorem fits_iff (r : Regex) (capacity : Nat) :
    r.toBytes.length ≤ (blankBuffer (capacity + maxHeaderLength)).length ↔
      r.code.length + captureBytes r.captures.toNat ≤ capacity + 32 := by
  rw [le_length_blankBuffer, r.readsAs_toBytes.length, headerLength, maxHeaderLength]
  omega

end Regex

namespace Cli

section

variable {s : Settings} {pattern : String} {buffer : List UInt8} {r : Regex}
  (h : ({ maxNesting := s.maxNesting } : Compiler).compile pattern.toUTF8.toList buffer = .ok r)
include h

theorem compilePattern_of_le
    (hle : r.code.length + captureBytes r.captures.toNat ≤ s.codeCapacity + 32) :
    compilePattern s pattern = .ok r := by
  rw [compilePattern, Compiler.compile_of_fits h ((r.fits_iff _).2 hle)]
  rfl

theorem compilePattern_of_lt
    (hlt : s.codeCapacity + 32 < r.code.length + captureBytes r.captures.toNat) :
    ∃ position,
      compilePattern s pattern = .error (syntaxErrorText pattern ⟨.tooLarge, position⟩) := by
  obtain ⟨position, herror⟩ := Compiler.compile_of_not_fits h
    (Nat.lt_of_not_le fun hle => Nat.not_le_of_lt hlt ((r.fits_iff _).1 hle))
  refine ⟨position, ?_⟩
  rw [compilePattern, herror]
  rfl

/-- **What the size that is set for code comes to.**  Let a pattern compile in some buffer, with the
limit on nesting that is set.

* With the settings it compiles just if its code and the bits of its captures, in whole bytes, are
  together at most 32 bytes longer than the size that is set, and then it compiles to the same.
* Otherwise it is refused for its size.
* Code within the size that is set is never refused, however many captures there are. -/
theorem compilePattern_capacity :
    ((∃ r', compilePattern s pattern = .ok r') ↔
      r.code.length + captureBytes r.captures.toNat ≤ s.codeCapacity + 32) ∧
    (∀ r', compilePattern s pattern = .ok r' → r' = r) ∧
    (s.codeCapacity + 32 < r.code.length + captureBytes r.captures.toNat →
      ∃ position,
        compilePattern s pattern = .error (syntaxErrorText pattern ⟨.tooLarge, position⟩)) ∧
    (r.code.length ≤ s.codeCapacity → compilePattern s pattern = .ok r) := by
  have hsame (r' : Regex) (hr' : compilePattern s pattern = .ok r') :
      r.code.length + captureBytes r.captures.toNat ≤ s.codeCapacity + 32 ∧ r' = r := by
    rcases Nat.lt_or_ge (s.codeCapacity + 32) (r.code.length + captureBytes r.captures.toNat)
      with hlt | hle
    · obtain ⟨position, herror⟩ := compilePattern_of_lt h hlt
      cases hr'.symm.trans herror
    · exact ⟨hle, Except.ok.inj (hr'.symm.trans (compilePattern_of_le h hle))⟩
  refine ⟨⟨fun ⟨r', hr'⟩ => (hsame r' hr').1, fun hle => ⟨r, compilePattern_of_le h hle⟩⟩,
    fun r' hr' => (hsame r' hr').2, compilePattern_of_lt h, fun hle => ?_⟩
  have hcaptures := r.captures.toNat_lt
  refine compilePattern_of_le h ?_
  rw [captureBytes]
  omega

end

theorem compile_aPlus_text :
    ({} : Compiler).compile "a+".toUTF8.toList (List.replicate 19 0) = .ok .aPlus := by
  have htext : "a+".toUTF8.toList = [0x61, 0x2b] := by decide +kernel
  rw [htext]
  exact Compiler.compile_aPlus

/-- The code of `a+` takes 10 bytes, and compiles where as many are set. -/
theorem compilePattern_capacity_aPlus :
    ({} : Compiler).compile "a+".toUTF8.toList (List.replicate 19 0) = .ok .aPlus ∧
      compilePattern { codeCapacity := 10 } "a+" = .ok .aPlus := by
  obtain ⟨-, -, -, hwithin⟩ :=
    compilePattern_capacity (s := { codeCapacity := 10 }) compile_aPlus_text
  exact ⟨compile_aPlus_text, hwithin (by decide)⟩

/-- **Code that is longer than is set may compile.**  The code of `a+` takes 10 bytes, and compiles
where 9 are set: the header has no bits for captures, and leaves their room to the code. -/
theorem compilePattern_beyond :
    ({} : Compiler).compile "a+".toUTF8.toList (List.replicate 19 0) = .ok .aPlus ∧
      ({ codeCapacity := 9 } : Settings).codeCapacity < Regex.aPlus.code.length ∧
      compilePattern { codeCapacity := 9 } "a+" = .ok .aPlus :=
  ⟨compile_aPlus_text, by decide,
    compilePattern_of_le (s := { codeCapacity := 9 }) compile_aPlus_text (by decide)⟩

end Cli

end BoundedRegex
