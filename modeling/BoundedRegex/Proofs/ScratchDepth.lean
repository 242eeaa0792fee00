import BoundedRegex.Proofs.Compile.Grouped
import BoundedRegex.Proofs.Limited
import BoundedRegex.Proofs.Pattern.Tree
import BoundedRegex.Proofs.Pattern.Unambiguous

/-!
# The depth that is reported

The compiler adds up frames in 64-bit words, token by token, and stops at the largest one; a compiled
pattern has 16 bits for the depth.  The depth that it reports is the one that the syntax tree of the
pattern needs, in numbers without a bound, and a pattern that needs more than 16 bits hold is refused
(`Compiler.compile_depth`).
-/

namespace BoundedRegex

namespace Compiler

/-- What compiling asks of a pattern and of the buffer, but for the depth: the pattern can be read to
its end, its tokens are a phrase, and the phrase keeps to the limits on the nesting, on the captures,
on what may be repeated and on the code; and the buffer has room for the code and its header. -/
def Admits (c : Compiler) (pattern buffer : List UInt8) : Prop :=
  (∃ length, (Lexemes.ofPattern pattern).ending = .ok length) ∧
    ∃ e n d, Phrase .alternation 0 (Lexemes.kinds pattern) e n d ∧ d ≤ c.maxNesting ∧ n ≤ 255 ∧
      e.RepeatsConsume ∧ e.code.length + 2 ≤ maxCodeLength ∧
        headerLength n + (e.code.length + 2) ≤ buffer.length

variable {c : Compiler} {pattern buffer : List UInt8} {r : Regex} {e : Expr} {n d : Nat}

/-- A tree of a pattern has the peak of its expression. -/
theorem peak_tree_eq {t : Tree .alternation} (ht : t.tokens = Lexemes.kinds pattern)
    (h : Phrase .alternation 0 (Lexemes.kinds pattern) e n d) : t.frames.peak = e.peak := by
  obtain ⟨f, n', d', h', hframes, -⟩ := t.exists_phrase 0
  rw [ht] at h'
  obtain ⟨rfl, -⟩ := h'.unique h
  exact (congrArg Frames.peak hframes).symm

/-- What compiles is admitted. -/
theorem admits_of_compile (h : c.compile pattern buffer = .ok r) : c.Admits pattern buffer := by
  obtain ⟨hending, e, n, d, hphrase, hd, hn, he, hcode, -⟩ := phrase_of_compile h
  exact ⟨hending, e, n, d, hphrase, hd, hn, he, length_code_le hcode,
    room_of_compile h hphrase hn hcode⟩

/-- Whatever is compiled reports the peak of a tree of its pattern. -/
theorem toNat_scratchDepth_eq {t : Tree .alternation} (ht : t.tokens = Lexemes.kinds pattern)
    (h : c.compile pattern buffer = .ok r) : r.scratchDepth.toNat = t.frames.peak := by
  obtain ⟨-, e, n, d, hphrase, -, -, -, -, hdepth⟩ := phrase_of_compile h
  rw [hdepth, peak_tree_eq ht hphrase]

/-- What is admitted compiles, if 16 bits hold its depth. -/
theorem Admits.exists_compile {t : Tree .alternation} (h : c.Admits pattern buffer)
    (ht : t.tokens = Lexemes.kinds pattern) (hpeak : t.frames.peak ≤ 65535) :
    ∃ r, c.compile pattern buffer = .ok r := by
  obtain ⟨⟨length, hending⟩, e, n, d, hphrase, hd, hn, he, hcode, hbuffer⟩ := h
  rw [peak_tree_eq ht hphrase] at hpeak
  exact Compiler.exists_compile hending hphrase hd hn he hcode hpeak hbuffer

/-- What is admitted is refused, if 16 bits do not hold its depth. -/
theorem Admits.compile_eq_error {t : Tree .alternation} (h : c.Admits pattern buffer)
    (ht : t.tokens = Lexemes.kinds pattern) (hpeak : 65535 < t.frames.peak) :
    c.compile pattern buffer = .error ⟨.tooLarge, 0⟩ := by
  obtain ⟨⟨length, hending⟩, e, n, d, hphrase, hd, hn, he, hcode, hbuffer⟩ := h
  rw [peak_tree_eq ht hphrase] at hpeak
  have hroom : e.code.length + 2 ≤ Nat.min buffer.length maxCodeLength :=
    Nat.le_min.2 ⟨Nat.le_trans (Nat.le_add_left ..) hbuffer, hcode⟩
  obtain ⟨E, hcompile, -⟩ := compile_eq_toRegex hending hphrase hd hn he hroom
  -- The count may have stopped on the way, but not below 65536.
  have hcount : 65536 ≤ e.footprint.peak := by
    rw [e.footprint_eq]
    exact Nat.le_min.2 ⟨hpeak, by decide⟩
  rw [hcompile, Emission.toRegex, if_pos hcount]

/-- **The depth is that of the syntax tree, in exact arithmetic.**  A pattern that is admitted has a
syntax tree.  Whatever is compiled reports the peak of the tree of the pattern.  A pattern compiles
if and only if it is admitted and this peak is 65535 at most; if it is admitted and the peak is
greater, then it is refused as too large, at its start. -/
theorem compile_depth (c : Compiler) (pattern buffer : List UInt8) :
    (c.Admits pattern buffer → ∃ t : Tree .alternation, t.tokens = Lexemes.kinds pattern) ∧
    ∀ t : Tree .alternation, t.tokens = Lexemes.kinds pattern →
      (∀ r, c.compile pattern buffer = .ok r → r.scratchDepth.toNat = t.frames.peak) ∧
      ((∃ r, c.compile pattern buffer = .ok r) ↔
        c.Admits pattern buffer ∧ t.frames.peak ≤ 65535) ∧
      (c.Admits pattern buffer → 65535 < t.frames.peak →
        c.compile pattern buffer = .error ⟨.tooLarge, 0⟩) := by
  refine ⟨fun ⟨_, _, _, _, hphrase, _⟩ => hphrase.exists_tree, fun t ht => ⟨?_, ⟨?_, ?_⟩, ?_⟩⟩
  · intro r h
    exact toNat_scratchDepth_eq ht h
  · rintro ⟨r, h⟩
    have hpeak := toNat_scratchDepth_eq ht h
    exact ⟨admits_of_compile h, hpeak ▸ Nat.le_of_lt_succ r.scratchDepth.toNat_lt⟩
  · rintro ⟨h, hpeak⟩
    exact h.exists_compile ht hpeak
  · intro h hpeak
    exact h.compile_eq_error ht hpeak

end Compiler

/-! ### Repetitions of repetitions -/

/-- The pattern `(…((a|b){254})…{254})`, with so many repetitions. -/
def nestedPattern : Nat → List UInt8
  | 0 => grouped [0x61, 0x7c, 0x62]
  | k + 1 => grouped (nestedPattern k ++ [0x7b, 0x32, 0x35, 0x34, 0x7d])

/-- The tree of `a|b`. -/
def Tree.either : Tree .alternation :=
  .alternation [.sequence (.single (.leaf (.byte 0x61))) []]
    (.sequence (.single (.leaf (.byte 0x62))) [])

/-- The tree of such a pattern. -/
def Tree.nested : Nat → Tree .element
  | 0 => .group .either
  | k + 1 => .group (.alternation [] (.sequence (.quantified (nested k) ⟨254, 254, true⟩) []))

/-- The expression of such a pattern. -/
def Expr.nested : Nat → Expr
  | 0 => .alt (.leaf (.byte 0x61)) (.leaf (.byte 0x62))
  | k + 1 => .repetition (nested k) ⟨254, 254, true⟩

theorem Tree.phrase_nested (k : Nat) :
    Phrase .element 0 (nested k).tokens (.nested k) 0 (k + 1) := by
  induction k with
  | zero =>
    exact .group (.either (.one (.single (.byte 0 0x61))) (.last (.one (.single (.byte 0 0x62)))))
  | succ k ih =>
    have hquantified := Phrase.quantified ⟨254, 254, true⟩ ih
    have hgroup := Phrase.group (.last (.one hquantified))
    simpa [nested, tokens, tokensBefore, tokensOf, Expr.nested] using hgroup

theorem Expr.repeatsConsume_nested (k : Nat) : (nested k).RepeatsConsume := by
  induction k with
  | zero => exact ⟨trivial, trivial⟩
  | succ k ih => exact ⟨by cases k <;> rfl, ih⟩

/-- `<a|b>{2}` reports the six frames that its tree needs.  Nine repetitions of 254 iterations each
need more frames than a 64-bit number counts, and are refused for that. -/
theorem Compiler.compile_depth_nested :
    (∃ t : Tree .alternation,
      t.tokens = Lexemes.kinds [0x3c, 0x61, 0x7c, 0x62, 0x3e, 0x7b, 0x32, 0x7d] ∧
        t.frames.peak = 6 ∧ Regex.branching.scratchDepth.toNat = t.frames.peak) ∧
    ∃ t : Tree .alternation, t.tokens = Lexemes.kinds (nestedPattern 9) ∧
      maxCount < t.frames.peak ∧
        ({} : Compiler).Admits (nestedPattern 9) (List.replicate 120 0) ∧
          ({} : Compiler).compile (nestedPattern 9) (List.replicate 120 0) =
            .error ⟨.tooLarge, 0⟩ := by
  have htokens : (Tree.alternation [] (.sequence (.quantified (.capture .either) ⟨2, 2, true⟩)
      [])).tokens = Lexemes.kinds [0x3c, 0x61, 0x7c, 0x62, 0x3e, 0x7b, 0x32, 0x7d] := by
    decide +kernel
  have htokens' : (Tree.alternation [] (.sequence (.single (.nested 9)) [])).tokens =
      Lexemes.kinds (nestedPattern 9) := by
    decide +kernel
  have hpeak : maxCount < (Tree.alternation [] (.sequence (.single (.nested 9)) [])).frames.peak := by
    decide +kernel
  have hending : (Lexemes.ofPattern (nestedPattern 9)).ending = .ok 68 := by
    decide +kernel
  have hphrase : Phrase .alternation 0 (Lexemes.kinds (nestedPattern 9)) (.nested 9) 0 10 := by
    have h := Phrase.last (.one (.single (Tree.phrase_nested 9)))
    rw [← htokens']
    simpa [Tree.tokens, Tree.tokensBefore, Tree.tokensOf] using h
  have hadmits : ({} : Compiler).Admits (nestedPattern 9) (List.replicate 120 0) := by
    refine ⟨⟨68, hending⟩, .nested 9, 0, 10, hphrase, by decide, by decide,
      Expr.repeatsConsume_nested 9, by decide +kernel, ?_⟩
    rw [List.length_replicate]
    decide +kernel
  obtain ⟨-, hdepth⟩ := compile_depth {} [0x3c, 0x61, 0x7c, 0x62, 0x3e, 0x7b, 0x32, 0x7d]
    (List.replicate 39 0)
  obtain ⟨-, hnested⟩ := compile_depth {} (nestedPattern 9) (List.replicate 120 0)
  refine ⟨⟨_, htokens, by decide +kernel, (hdepth _ htokens).1 _ compile_branching⟩,
    _, htokens', hpeak, hadmits, (hnested _ htokens').2.2 hadmits ?_⟩
  exact Nat.lt_trans (by decide) hpeak

end BoundedRegex
