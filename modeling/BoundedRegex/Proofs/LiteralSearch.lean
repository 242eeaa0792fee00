import BoundedRegex.Proofs.Accepted
import BoundedRegex.Proofs.Compile.LoopBound
import BoundedRegex.Proofs.Leftmost
import BoundedRegex.Proofs.Match.Ample
import BoundedRegex.Proofs.Match.Implements
import BoundedRegex.Proofs.Pattern.Escaping

/-!
# Searching for a text

An escaped text compiles to code that matches the text, byte by byte.  An attempt takes a step for
each byte and two more at most, and no frame and no slot for a capture
(`Program.Holds.settles_literal`).  So a search finds the first occurrence of the text
(`Compiler.compile_escaped`).
-/

namespace BoundedRegex

/-- A text occurs in the input at an offset. -/
def Occurs (input : Array UInt8) (w : List UInt8) (offset : Nat) : Prop :=
  w <+: input.toList.drop offset

instance (input : Array UInt8) (w : List UInt8) (offset : Nat) : Decidable (Occurs input w offset) :=
  inferInstanceAs (Decidable (_ <+: _))

variable {input : Array UInt8} {w : List UInt8} {b : UInt8} {offset : Nat}

theorem occurs_nil (input : Array UInt8) (offset : Nat) : Occurs input [] offset :=
  List.nil_prefix

theorem occurs_cons :
    Occurs input (b :: w) offset ↔ input[offset]? = some b ∧ Occurs input w (offset + 1) := by
  rw [Occurs, Occurs, ← Array.getElem?_toList, ← List.head?_drop, ← List.tail_drop]
  cases input.toList.drop offset with
  | nil => simp
  | cons c rest => rw [List.cons_prefix_cons, List.head?_cons, Option.some.injEq, eq_comm]; rfl

/-- A text that is not empty occurs before the end of the input. -/
theorem Occurs.lt (h : Occurs input w offset) (hw : w ≠ []) : offset < input.size := by
  have hpos := List.length_pos_iff.2 hw
  have hlength : w.length ≤ input.size - offset := by
    simpa using h.length_le
  omega

/-! ### Attempts -/

/-- The end of a text where it occurs. -/
def occurrence (input : Array UInt8) (w : List UInt8) (offset : Nat) : List Point :=
  if Occurs input w offset then [⟨offset + w.length, []⟩] else []

theorem occurrence_cons :
    occurrence input (b :: w) offset =
      if input[offset]? = some b then occurrence input w (offset + 1) else [] := by
  simp only [occurrence, occurs_cons, List.length_cons, Nat.add_assoc, Nat.add_comm 1]
  split <;> split <;> simp_all

/-- Where the code of a text stands, an attempt comes to the end of the text if it occurs there, and
to nothing if it does not. -/
theorem Program.Holds.settles_literal {p : Program} {a : Nat}
    (h : p.Holds a (literalCode w ++ Instr.accept.encode)) (offset : Nat) :
    Settles p input 0 (.running a offset [] []) (occurrence input w offset) (w.length + 2) ∧
      Spares p input (.running a offset [] []) 0 := by
  induction w generalizing a offset with
  | nil =>
    have hf : p.fetch? a = some (.accept, 2) := h.fetch?_eq trivial
    have haccepts : (Config.running a offset [] []).step p input = .accepted offset [] [] := by
      simp only [Config.step, Config.execute, hf]
    rw [occurrence, if_pos (occurs_nil input offset)]
    exact ⟨Settles.accepted (t := ⟨offset, []⟩) haccepts Settles.exhausted,
      Spares.accepted haccepts Spares.exhausted⟩
  | cons b w ih =>
    have h : p.Holds a ((Instr.byte b).encode ++ (literalCode w ++ Instr.accept.encode)) := by
      rwa [literalCode, List.flatMap_cons, List.append_assoc] at h
    obtain ⟨hsettles, hspares⟩ := ih h.right (offset + 1)
    have hstep := Config.execute_singleByte input (S := []) (i := .byte b) rfl
      (h.left.fetch?_eq trivial) ⟨offset, []⟩
    have haccepts : input[offset]?.any (Instr.byte b).accepts = true ↔ input[offset]? = some b := by
      cases input[offset]? with
      | none => simp
      | some c =>
        show decide (b = c) = true ↔ some c = some b
        rw [decide_eq_true_iff, Option.some.injEq, eq_comm]
    rw [occurrence_cons]
    by_cases hb : input[offset]? = some b
    · rw [if_pos (haccepts.2 hb)] at hstep
      rw [if_pos hb]
      exact ⟨Settles.step hstep (Nat.zero_le _) hsettles, Spares.step hstep (Nat.zero_le _) hspares⟩
    · rw [if_neg (fun hany => hb (haccepts.1 hany))] at hstep
      rw [if_neg hb]
      have hfails : Settles p input 0 (.running a offset [] []) [] 2 :=
        Settles.step hstep (Nat.zero_le _) Settles.exhausted
      exact ⟨hfails.mono (by simp), Spares.step hstep (Nat.zero_le _) Spares.exhausted⟩

/-! ### Searches -/

/-- What is found at an offset where a text occurs. -/
def foundText (input : Array UInt8) (w : List UInt8) (offset : Nat) : Option Match :=
  if Occurs input w offset then some ⟨offset, offset + w.length, []⟩ else none

/-- Of some offsets in a row, the first at which a text occurs. -/
theorem findSome?_foundText {start count s : Nat} (hs : start ≤ s) (hlt : s < start + count)
    (h : Occurs input w s) (hfirst : ∀ t, start ≤ t → t < s → ¬Occurs input w t) :
    (List.range' start count).findSome? (foundText input w) = some ⟨s, s + w.length, []⟩ := by
  induction count generalizing start with
  | zero => omega
  | succ count ih =>
    rw [List.range'_succ, List.findSome?_cons, foundText]
    rcases Nat.eq_or_lt_of_le hs with rfl | hstart
    · rw [if_pos h]
    · rw [if_neg (hfirst start (Nat.le_refl _) hstart)]
      exact ih hstart (by omega) fun t ht => hfirst t (Nat.le_of_lt ht)

namespace Matcher

variable {m : Matcher}

/-- A matcher for the code of a text finds at an offset the text, if it occurs there. -/
theorem matchAt_literal (hcode : m.program.code = literalCode w ++ Instr.accept.encode)
    (hlimit : w.length + 2 ≤ m.stepLimit) (hoffset : offset ≤ input.size) :
    (m.matchAt input offset).1 = .ok (foundText input w offset) := by
  have hholds : m.program.Holds 0 (literalCode w ++ Instr.accept.encode) :=
    ⟨[], [], by simpa using hcode, rfl⟩
  obtain ⟨hsettles, hspares⟩ := hholds.settles_literal offset
  have hroomy : m.Roomy 0 0 (w.length + 2) := ⟨Nat.zero_le _, Nat.zero_le _, hlimit⟩
  rw [(hroomy.gives hoffset hsettles hspares firstOnly ()).matchAt, occurrence, foundText]
  split <;> rfl

/-- It finds the first occurrence, or none if there is none. -/
theorem findAt_literal (hcode : m.program.code = literalCode w ++ Instr.accept.encode) (hw : w ≠ [])
    (hlimit : w.length + 2 ≤ m.stepLimit) (input : Array UInt8) (start : Nat) :
    (∀ s, start ≤ s → Occurs input w s → (∀ t, start ≤ t → t < s → ¬Occurs input w t) →
      (m.findAt input start).1 = .ok (some ⟨s, s + w.length, []⟩)) ∧
    ((∀ s, start ≤ s → ¬Occurs input w s) → (m.findAt input start).1 = .ok none) := by
  have hattempts : ∀ offset < input.size + 1,
      (m.matchAt input offset).1 = .ok (foundText input w offset) :=
    fun _ hoffset => matchAt_literal hcode hlimit (Nat.le_of_lt_succ hoffset)
  have hfind := findAt_eq_findSome (Nat.le_trans (Nat.le_add_left ..) hlimit) hattempts start
  refine ⟨fun s hs h hfirst => ?_, fun hnone => ?_⟩
  · have hlt := h.lt hw
    rw [hfind, findSome?_foundText hs (by omega) h hfirst]
  · rw [hfind, List.findSome?_eq_none_iff.2]
    intro offset hoffset
    exact if_neg (hnone offset (List.mem_range'_1.1 hoffset).1)

end Matcher

/-! ### Compiled texts -/

namespace Compiler

/-- **An escaped text is a search for the text.**  Put a backslash before every byte of a text that
has a meaning of its own.  If the text is not empty, and its code is not too long and has room in the
buffer with a header, then this compiles, without captures and to a scratch depth of 0.  With any
matcher for it that has two steps more than the text has bytes, whatever its buffers, a search in any
input and from any offset finds the text where it first occurs there, or nothing if it does not. -/
theorem compile_escaped (c : Compiler) {w buffer : List UInt8} (hw : w ≠ [])
    (hcode : w.length + w.count escapeByte + 2 ≤ maxCodeLength)
    (hroom : headerLength 0 + (w.length + w.count escapeByte + 2) ≤ buffer.length) :
    ∃ r, c.compile (escaped w) buffer = .ok r ∧ r.captures = 0 ∧ r.scratchDepth = 0 ∧
      ∀ m : Matcher, m.program = .ofCode r.code → w.length + 2 ≤ m.stepLimit →
        ∀ (input : Array UInt8) (start : Nat),
          (∀ s, start ≤ s → Occurs input w s → (∀ t, start ≤ t → t < s → ¬Occurs input w t) →
            (m.findAt input start).1 = .ok (some ⟨s, s + w.length, []⟩)) ∧
          ((∀ s, start ≤ s → ¬Occurs input w s) → (m.findAt input start).1 = .ok none) := by
  obtain ⟨b, rest, rfl⟩ := List.exists_cons_of_ne_nil hw
  obtain ⟨hkinds, hending⟩ := Lexemes.ofText_escaped 0 (b :: rest)
  have hkinds : Lexemes.kinds (escaped (b :: rest)) = (b :: rest).map .byte := hkinds
  let e : Expr := (Expr.leaf (.byte b)).thenBytes rest
  have hphrase : Phrase .alternation 0 (Lexemes.kinds (escaped (b :: rest))) e 0 0 :=
    hkinds ▸ Phrase.literal b rest
  have hconsume : e.RepeatsConsume := Expr.repeatsConsume_thenBytes rest trivial
  have hliteral : e.code = literalCode (b :: rest) := Expr.code_thenBytes _ rest
  have hpeak : e.peak = 0 := Expr.frames_thenBytes rest rfl rfl
  have hlength : e.code.length + 2 = (b :: rest).length + (b :: rest).count escapeByte + 2 := by
    rw [hliteral, length_literalCode]
  obtain ⟨r, h⟩ := exists_compile hending hphrase (Nat.zero_le c.maxNesting) (Nat.zero_le _) hconsume
    (hlength ▸ hcode) (hpeak ▸ Nat.zero_le _) (hlength ▸ hroom)
  obtain ⟨hr, hdepth, hcaptures⟩ :=
    eq_of_derives h (hphrase.derives (Nat.zero_le _) hconsume)
  refine ⟨r, h, UInt8.toNat_inj.1 hcaptures, UInt16.toNat_inj.1 (hdepth.trans hpeak), ?_⟩
  intro m hm hlimit input start
  refine Matcher.findAt_literal ?_ hw hlimit input start
  rw [hm, ← hliteral]
  exact hr

/-- The text `a.` with an escape byte behind it, put as `a\.` and that byte, is found at 3 from offset
1 on, and not at all from 4 on. -/
theorem compile_escaped_dot :
    ∃ r, ({} : Compiler).compile [0x61, 0x5c, 0x2e, 0xAA] (List.replicate 16 0) = .ok r ∧
      r.captures = 0 ∧ r.scratchDepth = 0 ∧
      ((Matcher.ofRegex r 0 0).findAt #[0x61, 0x78, 0xAA, 0x61, 0x2e, 0xAA] 1).1 =
        .ok (some ⟨3, 6, []⟩) ∧
      ((Matcher.ofRegex r 0 0).findAt #[0x61, 0x78, 0xAA, 0x61, 0x2e, 0xAA] 4).1 = .ok none := by
  have hw : ([0x61, 0x2e, 0xAA] : List UInt8) ≠ [] := by decide
  have hroom : headerLength 0 + (3 + 1 + 2) ≤ (List.replicate 16 (0 : UInt8)).length := by decide
  obtain ⟨r, hcompile, hcaptures, hdepth, hsearch⟩ := compile_escaped {} hw (by decide) hroom
  have hfind := hsearch (.ofRegex r 0 0) rfl (Nat.le_of_ble_eq_true rfl)
    #[0x61, 0x78, 0xAA, 0x61, 0x2e, 0xAA]
  refine ⟨r, hcompile, hcaptures, hdepth, (hfind 1).1 3 (by decide) (by decide) (by decide), ?_⟩
  refine (hfind 4).2 fun s hs h => ?_
  have hlt : s < 6 := h.lt hw
  obtain rfl | rfl : s = 4 ∨ s = 5 := by omega
  · exact absurd h (by decide)
  · exact absurd h (by decide)

end Compiler

end BoundedRegex
