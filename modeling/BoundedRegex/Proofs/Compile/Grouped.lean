import BoundedRegex.Proofs.Accepted
import BoundedRegex.Proofs.Compile.LoopBound
import BoundedRegex.Proofs.Pattern.Lexing

/-!
# A pattern in brackets

A pattern that compiles can be put into brackets that do not capture: its tokens stay what they are
(`Lexemes.ofPattern_grouped`), and are taken with one more bracket around them
(`Compiler.feed_grouped`).  A repetition of the whole is then refused just if the expression of the
pattern is nullable (`Compiler.compile_starred_iff`).
-/

namespace BoundedRegex

/-- A pattern in brackets that do not capture. -/
def grouped (pattern : List UInt8) : List UInt8 :=
  '('.toUInt8 :: (pattern ++ [')'.toUInt8])

/-- A pattern in brackets, any number of times. -/
def starred (pattern : List UInt8) : List UInt8 :=
  grouped pattern ++ ['*'.toUInt8]

/-! ### Tokens -/

/-- The tokens of a pattern in brackets, with more text behind it. -/
theorem Lexemes.ofPattern_grouped {pattern : List UInt8} {length : Nat}
    (h : (ofPattern pattern).ending = .ok length) (rest : List UInt8) :
    length = pattern.length ∧ ∃ inner, inner.map (·.kind) = kinds pattern ∧
      ofPattern (grouped pattern ++ rest) =
        { tokens := (⟨.groupOpen, 0⟩ :: (inner ++ [⟨.groupClose, pattern.length + 1⟩])) ++
            (ofText (pattern.length + 2) rest).tokens
          ending := (ofText (pattern.length + 2) rest).ending } := by
  have hshift : ofText 1 pattern = (ofPattern pattern).shift 1 := ofText_add 1 0 pattern
  have hending : (ofText 1 pattern).ending = .ok (1 + length) := by
    rw [hshift, shift, h]
  obtain ⟨hlength, hinner⟩ := ofText_append (q := ')'.toUInt8 :: rest) hending
    (fun hhead => absurd (Option.some.inj hhead) (by decide))
  have hlength : length = pattern.length := by omega
  have hclose : ofText (1 + length) (')'.toUInt8 :: rest) =
      cons ⟨.groupClose, 1 + length⟩ (ofText (1 + length + 1) rest) :=
    ofText_cons rfl rfl
  have hopen : ofText 0 ('('.toUInt8 :: (pattern ++ ')'.toUInt8 :: rest)) =
      cons ⟨.groupOpen, 0⟩ ((ofText 1 pattern).followedBy (1 + length) (')'.toUInt8 :: rest)) :=
    ofText_cons rfl hinner
  have hgrouped : grouped pattern ++ rest = '('.toUInt8 :: (pattern ++ ')'.toUInt8 :: rest) := by
    simp [grouped]
  refine ⟨hlength, (ofText 1 pattern).tokens, by rw [hshift, map_kind_shift]; rfl, ?_⟩
  rw [hgrouped, ofPattern, hopen, followedBy, hclose, hlength, Nat.add_comm 1]
  simp [cons]

/-! ### Errors -/

theorem bind_eq_error {ε α β : Type} {x : Except ε α} {f : α → Except ε β} {y : ε}
    (h : x >>= f = .error y) : x = .error y ∨ ∃ a, x = .ok a ∧ f a = .error y := by
  cases x with
  | error =>
    cases h
    exact Or.inl rfl
  | ok a => exact Or.inr ⟨a, rfl, h⟩

namespace Emission

variable {E E' : Emission} {r : Reading} {around : Around} {e : Expr} {position length : Nat}
  {x : SyntaxError}

theorem eq_of_write_error {f : CodeBuffer → Option CodeBuffer}
    (h : E.write position f = .error x) : x = ⟨.tooLarge, position⟩ := by
  obtain ⟨buffer, captures, loopBound, level, openings⟩ := E
  simp only [write] at h
  split at h
  · cases h
  · cases h
    rfl

/-- A repetition of what is nullable is refused. -/
theorem Shows.quantify_of_nullable (h : E.Shows r around) (ho : r.operand = some e)
    (hnull : e.nullable = true) (position : Nat) (q : Quantifier) :
    E.quantify position q = .error ⟨.unboundedEmptyRepetition, position⟩ := by
  have hoperand := h.level.operand
  rw [ho] at hoperand
  obtain ⟨o, hlevel, hof⟩ := Option.map_eq_some_iff.1 hoperand
  have hnull' : o.footprint.nullable = true := by rw [hof, e.footprint_eq, hnull]
  unfold Emission.quantify
  rw [hlevel]
  exact if_pos hnull'

/-- A repetition of anything else is refused only for want of room. -/
theorem Shows.kind_of_quantify_error {q : Quantifier} (h : E.Shows r around)
    (ho : r.operand = some e) (hnull : e.nullable = false)
    (hE : E.quantify position q = .error x) : x.kind = .tooLarge := by
  have hoperand := h.level.operand
  rw [ho] at hoperand
  obtain ⟨o, hlevel, hof⟩ := Option.map_eq_some_iff.1 hoperand
  have hnull' : ¬o.footprint.nullable = true := by
    rw [hof, e.footprint_eq, hnull]
    exact Bool.false_ne_true
  unfold Emission.quantify at hE
  rw [hlevel] at hE
  dsimp only at hE
  rw [if_neg hnull'] at hE
  rcases bind_eq_error hE with hwrite | ⟨E', -, hE⟩
  · rw [eq_of_write_error hwrite]
  · cases hE

theorem eq_of_closeLevel_error (h : E.closeLevel position = .error x) :
    x = ⟨.emptyExpression, position⟩ := by
  unfold closeLevel at h
  split at h
  · cases h
    rfl
  · cases h

/-- The end of a pattern is refused if nothing stands in front of it, if a bracket is still open, or
if the code does not fit. -/
theorem eq_of_finish_error (h : E.finish length = .error x) :
    x = ⟨.emptyExpression, length⟩ ∨ (∃ o ∈ E.openings, x = ⟨.unterminatedGroup, o.position⟩) ∨
      x = ⟨.tooLarge, length⟩ := by
  rcases bind_eq_error h with hclose | ⟨⟨f, E'⟩, hclose, h⟩
  · exact Or.inl (eq_of_closeLevel_error hclose)
  · have hopenings := (keeps_closeLevel hclose).openings
    dsimp only at h
    split at h
    · next o outer ho =>
      cases h
      rw [hopenings] at ho
      exact Or.inr (Or.inl ⟨o, ho ▸ List.mem_cons_self, rfl⟩)
    · rcases bind_eq_error h with hwrite | ⟨E', -, h⟩
      · exact Or.inr (Or.inr (eq_of_write_error hwrite))
      · cases h

theorem eq_of_toRegex_error {f : Footprint} (h : E.toRegex f length = .error x) :
    ∃ position ≤ length, x = ⟨.tooLarge, position⟩ := by
  unfold toRegex at h
  split at h
  · cases h
    exact ⟨0, Nat.zero_le _, rfl⟩
  · split at h
    · cases h
      exact ⟨length, Nat.le_refl _, rfl⟩
    · cases h

end Emission

/-! ### Reading -/

namespace Compiler

variable {c : Compiler} {pattern buffer : List UInt8} {e : Expr} {n d length : Nat}

/-- The tokens of a pattern in brackets are taken where those of the pattern are, if one more
bracket may be open. -/
theorem feed_grouped {tokens : List TokenKind} (h : Phrase .alternation 0 tokens e n d)
    (hd : d < c.maxNesting) (hn : n ≤ 255) (he : e.RepeatsConsume)
    (hroom : e.code.length ≤ Nat.min buffer.length maxCodeLength) {list : List Token}
    (hlist : list.map (·.kind) = .groupOpen :: tokens ++ [.groupClose]) :
    ∃ E, list.foldlM (Emission.feed c.maxNesting) { buffer := .ofRoom buffer } = .ok E ∧
      E.Stands (({} : Reading).place e) [] n buffer.length := by
  have hstart : ({ buffer := .ofRoom buffer } : Emission).Stands {} [] 0 buffer.length :=
    ⟨⟨rfl, .empty 0, trivial⟩, rfl, rfl⟩
  have hdepth : ([] : Around).length + (d + 1) ≤ c.maxNesting := by
    rw [List.length_nil, Nat.zero_add]
    exact hd
  have hextent : ({} : Reading).extent [] + e.code.length ≤
      Nat.min buffer.length maxCodeLength := by
    show 0 + e.code.length ≤ _
    rw [Nat.zero_add]
    exact hroom
  obtain ⟨E, r, hfeed, hE, rfl⟩ := (h.taken hn he).group _ {} [] list hlist hstart trivial hdepth
    hextent
  exact ⟨E, hfeed, hE⟩

/-- Compiling a pattern in brackets with a star behind it: the star repeats what the brackets hold,
and ends the pattern. -/
theorem compile_starred_eq (hending : (Lexemes.ofPattern pattern).ending = .ok length)
    (h : Phrase .alternation 0 (Lexemes.kinds pattern) e n d) (hd : d < c.maxNesting)
    (hn : n ≤ 255) (he : e.RepeatsConsume)
    (hroom : e.code.length ≤ Nat.min buffer.length maxCodeLength) :
    ∃ E : Emission, E.Stands (({} : Reading).place e) [] n buffer.length ∧
      c.compile (starred pattern) buffer =
        ((E.quantify (pattern.length + 2) ⟨0, unboundedCount, true⟩) >>= fun E =>
          E.finish (pattern.length + 3) >>= fun (f, E) => E.toRegex f (pattern.length + 3)) := by
  obtain ⟨-, inner, hinner, hlexemes⟩ := Lexemes.ofPattern_grouped hending ['*'.toUInt8]
  have hstar : Lexemes.ofText (pattern.length + 2) ['*'.toUInt8] =
      .cons ⟨.quantifier ⟨0, unboundedCount, true⟩, pattern.length + 2⟩
        ⟨[], .ok (pattern.length + 3)⟩ :=
    Lexemes.ofText_cons rfl (Lexemes.ofText_nil _)
  rw [hstar] at hlexemes
  have hkinds : (⟨.groupOpen, 0⟩ :: (inner ++ [⟨.groupClose, pattern.length + 1⟩]) :
      List Token).map (·.kind) = .groupOpen :: Lexemes.kinds pattern ++ [.groupClose] := by
    simp [hinner]
  obtain ⟨E, hfeed, hE⟩ := feed_grouped h hd hn he hroom hkinds
  refine ⟨E, hE, ?_⟩
  rw [compile, starred, hlexemes]
  dsimp only
  rw [List.foldlM_append, hfeed]
  show ((E.quantify _ _ >>= pure) >>= _) = _
  rw [bind_pure]
  rfl

/-- **A repetition of a whole pattern is refused just if its expression is nullable.** -/
theorem compile_starred_iff (hending : (Lexemes.ofPattern pattern).ending = .ok length)
    (h : Phrase .alternation 0 (Lexemes.kinds pattern) e n d) (hd : d < c.maxNesting)
    (hn : n ≤ 255) (he : e.RepeatsConsume)
    (hroom : e.code.length ≤ Nat.min buffer.length maxCodeLength) :
    c.compile (starred pattern) buffer =
        .error ⟨.unboundedEmptyRepetition, pattern.length + 2⟩ ↔ e.nullable = true := by
  obtain ⟨E, hE, hcompile⟩ := compile_starred_eq hending h hd hn he hroom
  rw [hcompile]
  constructor
  · intro herror
    refine Decidable.byContradiction fun hnull => ?_
    have hnull := eq_false_of_ne_true hnull
    rcases bind_eq_error herror with hquantify | ⟨E₁, -, herror⟩
    · exact nomatch hE.shows.kind_of_quantify_error rfl hnull hquantify
    · rcases bind_eq_error herror with hfinish | ⟨⟨f, E₂⟩, -, herror⟩
      · rcases Emission.eq_of_finish_error hfinish with hx | ⟨o, -, hx⟩ | hx <;> cases hx
      · obtain ⟨position, -, hx⟩ := Emission.eq_of_toRegex_error herror
        cases hx
  · intro hnull
    rw [hE.shows.quantify_of_nullable rfl hnull]
    rfl

end Compiler

end BoundedRegex
