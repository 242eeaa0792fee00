import BoundedRegex.Proofs.Compile.Grouped
import BoundedRegex.Proofs.Pattern.Blame

/-!
# Errors point at what is wrong

The compiler takes the tokens of a pattern one at a time.  When it refuses one, the error is one of
those that can be wrong with such a token, and is placed where the token is
(`Emission.faulty_of_feed`). The position of a bracket is kept while it is open, and is that of its
token (`Emission.faulty_of_mem_openings`).  So whatever is wrong with a pattern, the error points at
a byte that can be to blame (`Compiler.compile_pointsAt`).
-/

namespace BoundedRegex

/-- An error is one that can be wrong with a token, and is placed where the token is. -/
def TokenKind.Faulty (kind : TokenKind) (position : Nat) (x : SyntaxError) : Prop :=
  ∃ k ∈ kind.faults, x = ⟨k, position⟩

/-! ### Tokens that are refused -/

namespace Emission

variable {E E' : Emission} {position limit : Nat} {x : SyntaxError}

theorem eq_of_element_error {i : Instr} {f : Footprint} (h : E.element position i f = .error x) :
    x = ⟨.tooLarge, position⟩ :=
  eq_of_write_error h

theorem faulty_of_enter (capturing : Bool) (h : E.enter limit position capturing = .error x) :
    (cond capturing TokenKind.captureOpen .groupOpen).Faulty position x := by
  unfold enter at h
  split at h
  · cases h
    cases capturing <;> exact ⟨_, List.mem_cons_self, rfl⟩
  · cases capturing with
    | false => cases h
    | true =>
      rw [if_pos rfl] at h
      split at h
      · rcases bind_eq_error h with hwrite | ⟨E₁, -, h⟩
        · exact ⟨_, by decide, eq_of_write_error hwrite⟩
        · cases h
      · cases h
        exact ⟨.tooManyCaptures, by decide, rfl⟩

theorem faulty_of_leave (capturing : Bool) (h : E.leave position capturing = .error x) :
    (cond capturing TokenKind.captureClose .groupClose).Faulty position x := by
  suffices hfault : ∃ k ∈ TokenKind.groupClose.faults, x = ⟨k, position⟩ by
    cases capturing <;> exact hfault
  unfold leave at h
  split at h
  · cases h
    exact ⟨_, List.mem_cons_self, rfl⟩
  · rcases bind_eq_error h with hclose | ⟨⟨f, E₁⟩, -, h⟩
    · exact ⟨_, by decide, eq_of_closeLevel_error hclose⟩
    · dsimp only at h
      split at h
      · cases h
      · exact ⟨_, by decide, eq_of_write_error h⟩
      · cases h
        exact ⟨.mismatchedCaptureGroup, by decide, rfl⟩

theorem faulty_of_alternate (h : E.alternate position = .error x) :
    TokenKind.alternation.Faulty position x := by
  unfold alternate at h
  split at h
  · cases h
    exact ⟨_, List.mem_cons_self, rfl⟩
  · rcases bind_eq_error h with hwrite | ⟨E₁, -, h⟩
    · exact ⟨_, by decide, eq_of_write_error hwrite⟩
    · rcases bind_eq_error h with hwrite | ⟨E₂, -, h⟩
      · exact ⟨_, by decide, eq_of_write_error hwrite⟩
      · cases h

theorem faulty_of_quantify {q : Quantifier} (h : E.quantify position q = .error x) :
    (TokenKind.quantifier q).Faulty position x := by
  unfold quantify at h
  split at h
  · cases h
    exact ⟨_, List.mem_cons_self, rfl⟩
  · split at h
    · cases h
      exact ⟨.unboundedEmptyRepetition, List.mem_cons_of_mem _ List.mem_cons_self, rfl⟩
    · rcases bind_eq_error h with hwrite | ⟨E₁, -, h⟩
      · exact ⟨.tooLarge, by simp [TokenKind.faults], eq_of_write_error hwrite⟩
      · cases h

/-- **A token is refused for what can be wrong with it**, and where it is. -/
theorem faulty_of_feed {t : Token} (h : E.feed limit t = .error x) :
    t.kind.Faulty t.position x := by
  obtain ⟨kind, position⟩ := t
  cases kind with
  | byte | set | anyByte | inputStart | inputEnd =>
    exact ⟨_, List.mem_cons_self, eq_of_element_error h⟩
  | groupOpen => exact faulty_of_enter false h
  | captureOpen => exact faulty_of_enter true h
  | groupClose => exact faulty_of_leave false h
  | captureClose => exact faulty_of_leave true h
  | alternation => exact faulty_of_alternate h
  | quantifier => exact faulty_of_quantify h

/-- Of the brackets that are open behind a token, all were open in front of it but one that the
token is itself. -/
theorem openings_of_feed {t : Token} (h : E.feed limit t = .ok E') {o : Opening}
    (ho : o ∈ E'.openings) :
    o ∈ E.openings ∨ t.kind.Faulty t.position ⟨.unterminatedGroup, o.position⟩ := by
  obtain ⟨kind, position⟩ := t
  have hopen (capturing : Bool) (h : E.enter limit position capturing = .ok E')
      (hfault : .unterminatedGroup ∈ kind.faults) :
      o ∈ E.openings ∨ kind.Faulty position ⟨.unterminatedGroup, o.position⟩ := by
    obtain ⟨⟨o', hopenings, -, hposition⟩, -, -⟩ := enter_eq h
    rw [hopenings] at ho
    cases ho with
    | head => exact Or.inr ⟨_, hfault, by rw [hposition]⟩
    | tail _ ho => exact Or.inl ho
  have hclose (capturing : Bool) (h : E.leave position capturing = .ok E') : o ∈ E.openings := by
    cases hopenings : E.openings with
    | nil =>
      rw [leave, hopenings] at h
      cases h
    | cons o' outer =>
      rw [(leave_eq hopenings h).1] at ho
      exact List.mem_cons_of_mem _ ho
  cases kind with
  | byte | set | anyByte | inputStart | inputEnd =>
    exact Or.inl ((keeps_element h).1.openings ▸ ho)
  | groupOpen => exact hopen false h (by decide)
  | captureOpen => exact hopen true h (by decide)
  | groupClose => exact Or.inl (hclose false h)
  | captureClose => exact Or.inl (hclose true h)
  | alternation => exact Or.inl ((keeps_alternate h).openings ▸ ho)
  | quantifier q =>
    cases hoperand : E.level.operand with
    | none =>
      have herror : E.quantify position q = .error ⟨.nothingToRepeat, position⟩ := by
        rw [quantify, hoperand]
      cases herror.symm.trans h
    | some p => exact Or.inl ((quantify_eq hoperand h).1 ▸ ho)

/-! ### Runs -/

variable {tokens : List Token}

/-- When some tokens are refused, it is one of them that is at fault. -/
theorem faulty_of_foldlM (h : tokens.foldlM (feed limit) E = .error x) :
    ∃ t ∈ tokens, t.kind.Faulty t.position x := by
  induction tokens generalizing E with
  | nil => cases h
  | cons t tokens ih =>
    rcases bind_eq_error h with hfeed | ⟨E₁, -, h⟩
    · exact ⟨t, List.mem_cons_self, faulty_of_feed hfeed⟩
    · obtain ⟨t', ht', hfaulty⟩ := ih h
      exact ⟨t', List.mem_cons_of_mem _ ht', hfaulty⟩

/-- Of the brackets that are open behind some tokens, each is one of the tokens, or was open in
front of them. -/
theorem faulty_of_mem_openings (h : tokens.foldlM (feed limit) E = .ok E') {o : Opening}
    (ho : o ∈ E'.openings) :
    o ∈ E.openings ∨ ∃ t ∈ tokens, t.kind.Faulty t.position ⟨.unterminatedGroup, o.position⟩ := by
  induction tokens generalizing E with
  | nil =>
    cases h
    exact Or.inl ho
  | cons t tokens ih =>
    obtain ⟨E₁, hfeed, h⟩ := bind_eq_ok h
    rcases ih h with ho | ⟨t', ht', hfaulty⟩
    · rcases openings_of_feed hfeed ho with ho | hfaulty
      · exact Or.inl ho
      · exact Or.inr ⟨t, List.mem_cons_self, hfaulty⟩
    · exact Or.inr ⟨t', List.mem_cons_of_mem _ ht', hfaulty⟩

end Emission

/-! ### Patterns -/

namespace Compiler

variable {c : Compiler} {pattern buffer : List UInt8} {e : SyntaxError}

/-- **Errors point at what is wrong.**  When a pattern does not compile, whatever the limit on the
nesting and the buffer, the position of the error is in the pattern or at its end, and the byte
there is one that an error of the kind is about (`SyntaxError.Kind.Blames`). -/
theorem compile_pointsAt (h : c.compile pattern buffer = .error e) : e.PointsAt pattern := by
  have hend {k : SyntaxError.Kind} (hk : k.Blames pattern none) :
      SyntaxError.PointsAt pattern ⟨k, pattern.length⟩ :=
    ⟨Nat.le_refl _, by simpa using hk⟩
  rcases bind_eq_error h with hfeed | ⟨E, hfeed, h⟩
  · obtain ⟨t, ht, k, hk, rfl⟩ := Emission.faulty_of_foldlM hfeed
    exact Lexemes.pointsAt_of_mem ht hk
  rcases bind_eq_error h with hending | ⟨length, hending, h⟩
  · exact Lexemes.pointsAt_of_ending hending
  obtain rfl := Lexemes.length_of_ending hending
  rcases bind_eq_error h with hfinish | ⟨⟨f, E'⟩, -, h⟩
  · rcases Emission.eq_of_finish_error hfinish with rfl | ⟨o, ho, rfl⟩ | rfl
    · exact hend (Or.inl rfl)
    · rcases Emission.faulty_of_mem_openings hfeed ho with ho | ⟨t, ht, k, hk, hx⟩
      · cases ho
      · rw [hx]
        exact Lexemes.pointsAt_of_mem ht hk
    · exact hend trivial
  · obtain ⟨position, hle, rfl⟩ := Emission.eq_of_toRegex_error h
    exact ⟨hle, trivial⟩

/-- In `a(b|)c` the second alternative is empty, and the error points at the bracket behind it. -/
theorem compile_pointsAt_emptyAlternative :
    ({} : Compiler).compile [0x61, 0x28, 0x62, 0x7c, 0x29, 0x63] (List.replicate 32 0) =
        .error ⟨.emptyExpression, 4⟩ ∧
      SyntaxError.PointsAt [0x61, 0x28, 0x62, 0x7c, 0x29, 0x63] ⟨.emptyExpression, 4⟩ := by
  have hlexemes : Lexemes.ofPattern [0x61, 0x28, 0x62, 0x7c, 0x29, 0x63] =
      .cons ⟨.byte 0x61, 0⟩ (.cons ⟨.groupOpen, 1⟩ (.cons ⟨.byte 0x62, 2⟩ (.cons ⟨.alternation, 3⟩
        (.cons ⟨.groupClose, 4⟩ (.cons ⟨.byte 0x63, 5⟩ ⟨[], .ok 6⟩))))) :=
    Lexemes.ofText_cons rfl <| Lexemes.ofText_cons rfl <| Lexemes.ofText_cons rfl <|
      Lexemes.ofText_cons rfl <| Lexemes.ofText_cons rfl <| Lexemes.ofText_cons rfl <|
        Lexemes.ofText_nil 6
  have hcompile : ({} : Compiler).compile [0x61, 0x28, 0x62, 0x7c, 0x29, 0x63]
      (List.replicate 32 0) = .error ⟨.emptyExpression, 4⟩ := by
    rw [compile, hlexemes]
    rfl
  exact ⟨hcompile, compile_pointsAt hcompile⟩

end Compiler

end BoundedRegex
