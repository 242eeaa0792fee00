import BoundedRegex.Proofs.Compile.Progress
import BoundedRegex.Proofs.Generated

/-!
# Which patterns compile

With a buffer that is long enough for any code, a pattern compiles just if its tokens are a phrase
of the grammar and the limits are kept to (`Compiler.compile_ok_iff`).
-/

namespace BoundedRegex

namespace Emission

variable {E : Emission} {r : Reading} {n size : Nat} {e : Expr}

/-- A level with no brackets around it can be finished, if there is room for the instruction that
accepts. -/
theorem Stands.finish (h : E.Stands r [] n size) (hs : r.sequence = some e)
    (hroom : (Expr.alternation r.earlier e).code.length + 2 ≤ Nat.min size maxCodeLength)
    (length : Nat) :
    ∃ E', E.finish length = .ok ((Expr.alternation r.earlier e).footprint, E') ∧
      E'.buffer.location = (Expr.alternation r.earlier e).code.length + 2 ∧
      E'.captures = n ∧ E'.buffer.size = size := by
  obtain ⟨E₁, hclose, hcode, hcaptures, hopenings, hsize⟩ := h.closeLevel hs length
  change E₁.buffer.code.toList = (Expr.alternation r.earlier e).code at hcode
  obtain ⟨b, hb, hsize'⟩ := CodeBuffer.exists_emit (b := E₁.buffer) (i := .accept) (by
    rw [CodeBuffer.location_eq, hcode, CodeBuffer.capacity, hsize]
    exact hroom)
  have hnil : E₁.openings = [] := by
    rw [hopenings]
    exact List.eq_nil_of_length_eq_zero h.length_openings
  have hwrite : E₁.write length (·.emit .accept) = .ok { E₁ with buffer := b } :=
    write_eq_ok hb length
  refine ⟨{ E₁ with buffer := b }, bind_ok hclose ?_, ?_, hcaptures, hsize'.trans hsize⟩
  · dsimp only
    split
    · next heq => rw [hnil] at heq; cases heq
    · exact bind_ok hwrite rfl
  · rw [CodeBuffer.location_eq, CodeBuffer.emit_code hb, hcode, List.length_append]
    rfl

theorem exists_toRegex {f : Footprint} (hpeak : f.peak ≤ 65535)
    (hroom : headerLength E.captures + E.buffer.location ≤ E.buffer.size) (length : Nat) :
    ∃ r, E.toRegex f length = .ok r := by
  unfold toRegex
  rw [if_neg (Nat.not_le_of_lt (Nat.lt_succ_of_le hpeak)), if_neg (Nat.not_lt_of_le hroom)]
  exact ⟨_, rfl⟩

end Emission

namespace Compiler

variable {c : Compiler} {pattern buffer : List UInt8} {e : Expr} {n d length : Nat}

/-- A phrase for whose code there is room is compiled up to its end, where the depth is judged, and
the room for the header. -/
theorem compile_eq_toRegex (hending : (Lexemes.ofPattern pattern).ending = .ok length)
    (h : Phrase .alternation 0 (Lexemes.kinds pattern) e n d) (hd : d ≤ c.maxNesting)
    (hn : n ≤ 255) (he : e.RepeatsConsume)
    (hroom : e.code.length + 2 ≤ Nat.min buffer.length maxCodeLength) :
    ∃ E : Emission, c.compile pattern buffer = E.toRegex e.footprint length ∧
      E.buffer.location = e.code.length + 2 ∧ E.captures = n ∧
        E.buffer.size = buffer.length := by
  have hstart : ({ buffer := .ofRoom buffer } : Emission).Stands {} [] 0 buffer.length :=
    ⟨⟨rfl, .empty 0, trivial⟩, rfl, rfl⟩
  have hextent : ({} : Reading).extent [] + e.code.length ≤
      Nat.min buffer.length maxCodeLength := by
    show 0 + e.code.length ≤ _
    rw [Nat.zero_add]
    exact Nat.le_trans (Nat.le_add_right ..) hroom
  obtain ⟨E, r, hfeed, hE, f, hf, rfl⟩ := h.taken hn he _ {} [] _ rfl hstart rfl
    (Nat.le_trans (Nat.le_of_eq (Nat.zero_add d)) hd) hextent
  obtain ⟨E', hfinish, hlocation, hcaptures, hsize⟩ := hE.finish hf hroom length
  refine ⟨E', ?_, hlocation, hcaptures, hsize⟩
  rw [compile, hfeed, hending]
  show (E.finish length >>= _) = _
  rw [hfinish]
  rfl

/-- A phrase that keeps to the limits compiles into a buffer with room for its code and header. -/
theorem exists_compile (hending : (Lexemes.ofPattern pattern).ending = .ok length)
    (h : Phrase .alternation 0 (Lexemes.kinds pattern) e n d) (hd : d ≤ c.maxNesting)
    (hn : n ≤ 255) (he : e.RepeatsConsume) (hcode : e.code.length + 2 ≤ maxCodeLength)
    (hpeak : e.peak ≤ 65535) (hbuffer : headerLength n + (e.code.length + 2) ≤ buffer.length) :
    ∃ r, c.compile pattern buffer = .ok r := by
  have hroom : e.code.length + 2 ≤ Nat.min buffer.length maxCodeLength :=
    Nat.le_min.2 ⟨Nat.le_trans (Nat.le_add_left ..) hbuffer, hcode⟩
  obtain ⟨E, hcompile, hlocation, hcaptures, hsize⟩ :=
    compile_eq_toRegex hending h hd hn he hroom
  have hpeak' : e.footprint.peak ≤ 65535 := by
    rw [Expr.footprint_eq]
    exact Nat.le_trans (Nat.min_le_left ..) hpeak
  rw [hcompile]
  refine Emission.exists_toRegex hpeak' ?_ length
  rw [hcaptures, hlocation, hsize]
  exact hbuffer

/-- What compiles is a phrase that keeps to the limits. -/
theorem phrase_of_compile {r : Regex} (h : c.compile pattern buffer = .ok r) :
    (∃ length, (Lexemes.ofPattern pattern).ending = .ok length) ∧
      ∃ e n d, Phrase .alternation 0 (Lexemes.kinds pattern) e n d ∧ d ≤ c.maxNesting ∧ n ≤ 255 ∧
        e.RepeatsConsume ∧ r.code = e.code ++ Instr.accept.encode ∧
        r.scratchDepth.toNat = e.peak := by
  obtain ⟨e, n, hderives, -, hcode, hdepth, -⟩ := c.compile_derives h
  obtain ⟨d, hphrase, he⟩ := hderives.phrase
  obtain ⟨E, hfeed, h⟩ := bind_eq_ok h
  obtain ⟨length, hending, -⟩ := bind_eq_ok h
  have hstart : ({ buffer := .ofRoom buffer } : Emission).Shows {} [] := ⟨rfl, .empty 0, trivial⟩
  obtain ⟨hnesting, -⟩ := hphrase.nesting_le rfl hstart hfeed (Nat.zero_le _)
  rw [List.length_nil, Nat.zero_add] at hnesting
  exact ⟨⟨length, hending⟩, e, n, d, hphrase, hnesting, hderives.le_255 (Nat.zero_le _), he, hcode,
    hdepth⟩

/-- The code of what is compiled reaches no further than offsets do. -/
theorem length_code_le {r : Regex} (hcode : r.code = e.code ++ Instr.accept.encode) :
    e.code.length + 2 ≤ maxCodeLength := by
  have hle := r.code_le
  rw [hcode, List.length_append] at hle
  exact hle

/-- **Just the phrases that keep to the limits compile.**  With a buffer in which the longest code
and the longest header have room, a pattern compiles if and only if it can be read to its end and
its tokens are a phrase: with brackets nested no deeper than allowed, at most 255 captures, nothing
repeated that may be empty, no more code than offsets reach over, the instruction that accepts
included, and a scratch depth of 16 bits. -/
theorem compile_ok_iff (c : Compiler) (pattern : List UInt8)
    (hbuffer : maxCodeLength + maxHeaderLength ≤ buffer.length) :
    (∃ r, c.compile pattern buffer = .ok r) ↔
      (∃ length, (Lexemes.ofPattern pattern).ending = .ok length) ∧
        ∃ e n d, Phrase .alternation 0 (Lexemes.kinds pattern) e n d ∧ d ≤ c.maxNesting ∧
          (Lexemes.kinds pattern).count .captureOpen ≤ 255 ∧ e.RepeatsConsume ∧
          (e.code ++ Instr.accept.encode).length ≤ maxCodeLength ∧ e.peak ≤ 65535 := by
  constructor
  · rintro ⟨r, h⟩
    obtain ⟨hending, e, n, d, hphrase, hd, hn, he, hcode, hdepth⟩ := phrase_of_compile h
    refine ⟨hending, e, n, d, hphrase, hd, ?_, he, hcode ▸ r.code_le, ?_⟩
    · rw [hphrase.eq_add_count, Nat.zero_add] at hn
      exact hn
    · rw [← hdepth]
      exact Nat.le_of_lt_succ r.scratchDepth.toNat_lt
  · rintro ⟨⟨length, hending⟩, e, n, d, hphrase, hd, hn, he, hcode, hpeak⟩
    have hcount := hphrase.eq_add_count
    rw [Nat.zero_add] at hcount
    rw [← hcount] at hn
    rw [List.length_append] at hcode
    have hheader : headerLength n ≤ maxHeaderLength :=
      Nat.add_le_add_left (Nat.div_le_div_right (Nat.add_le_add_right hn 7)) _
    refine exists_compile hending hphrase hd hn he hcode hpeak (Nat.le_trans ?_ hbuffer)
    rw [Nat.add_comm]
    exact Nat.add_le_add hcode hheader

theorem compile_ok_iff_branching :
    maxCodeLength + maxHeaderLength ≤ (List.replicate 32808 (0 : UInt8)).length ∧
      ∃ r, ({} : Compiler).compile [0x3c, 0x61, 0x7c, 0x62, 0x3e, 0x7b, 0x32, 0x7d]
        (List.replicate 32808 0) = .ok r := by
  have hbuffer : maxCodeLength + maxHeaderLength ≤ (List.replicate 32808 (0 : UInt8)).length := by
    rw [List.length_replicate]
    decide
  have hending : (Lexemes.ofPattern
      [0x3c, 0x61, 0x7c, 0x62, 0x3e, 0x7b, 0x32, 0x7d]).ending = .ok 8 := by
    decide +kernel
  have halternatives : Phrase .alternation 1 [.byte 0x61, .alternation, .byte 0x62]
      (.alt (.leaf (.byte 0x61)) (.leaf (.byte 0x62))) 1 0 :=
    .either (.one (.single (.byte 1 0x61))) (.last (.one (.single (.byte 1 0x62))))
  refine ⟨hbuffer, (Compiler.compile_ok_iff {} _ hbuffer).2
    ⟨⟨8, hending⟩, Expr.branching, 1, 1, ?_⟩⟩
  rw [Lexemes.kinds_branching]
  exact ⟨.last (.one (.quantified _ (.capture halternatives))), by decide, by decide,
    ⟨rfl, trivial, trivial⟩, by decide, by decide⟩

end Compiler

end BoundedRegex
