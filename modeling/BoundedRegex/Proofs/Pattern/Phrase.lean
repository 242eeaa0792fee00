import BoundedRegex.Proofs.Pattern.Grammar

/-!
# The grammar alone

`Phrase c n tokens e n' d` says that some tokens make up a phrase of category `c`, and no more: what
is repeated may match the empty string, and there may be any number of captures.  It also says how
deep brackets are nested in the phrase, which is `d`.  `Derives` is what the grammar leaves when
repetitions have to consume and captures to be numbered with a byte (`Derives.phrase`,
`Phrase.derives`).
-/

namespace BoundedRegex

/-- Some tokens are a phrase that stands for an expression, with brackets nested as deep as given.
-/
inductive Phrase : Category → Nat → List TokenKind → Expr → Nat → Nat → Prop where
  | byte (n : Nat) (b : UInt8) : Phrase .element n [.byte b] (.leaf (.byte b)) n 0
  | set (n : Nat) (s : ByteSet) : Phrase .element n [.set s] (.leaf (.set s)) n 0
  | anyByte (n : Nat) : Phrase .element n [.anyByte] (.leaf .anyByte) n 0
  | inputStart (n : Nat) : Phrase .element n [.inputStart] (.anchor .start) n 0
  | inputEnd (n : Nat) : Phrase .element n [.inputEnd] (.anchor .stop) n 0
  | group {n n' d : Nat} {tokens : List TokenKind} {e : Expr}
      (h : Phrase .alternation n tokens e n' d) :
      Phrase .element n (.groupOpen :: tokens ++ [.groupClose]) e n' (d + 1)
  | capture {n n' d : Nat} {tokens : List TokenKind} {e : Expr}
      (h : Phrase .alternation (n + 1) tokens e n' d) :
      Phrase .element n (.captureOpen :: tokens ++ [.captureClose]) (.capture (.ofNat n) e) n'
        (d + 1)
  | single {n n' d : Nat} {tokens : List TokenKind} {e : Expr}
      (h : Phrase .element n tokens e n' d) : Phrase .atom n tokens e n' d
  | quantified {n n' d : Nat} {tokens : List TokenKind} {e : Expr} (q : Quantifier)
      (h : Phrase .element n tokens e n' d) :
      Phrase .atom n (tokens ++ [.quantifier q]) (.repetition e q) n' d
  | one {n n' d : Nat} {tokens : List TokenKind} {e : Expr} (h : Phrase .atom n tokens e n' d) :
      Phrase .sequence n tokens e n' d
  | more {n n₁ n' d d' : Nat} {tokens rest : List TokenKind} {e f : Expr}
      (h : Phrase .sequence n tokens e n₁ d) (h' : Phrase .atom n₁ rest f n' d') :
      Phrase .sequence n (tokens ++ rest) (.seq e f) n' (Nat.max d d')
  | last {n n' d : Nat} {tokens : List TokenKind} {e : Expr}
      (h : Phrase .sequence n tokens e n' d) : Phrase .alternation n tokens e n' d
  | either {n n₁ n' d d' : Nat} {tokens rest : List TokenKind} {e f : Expr}
      (h : Phrase .sequence n tokens e n₁ d) (h' : Phrase .alternation n₁ rest f n' d') :
      Phrase .alternation n (tokens ++ .alternation :: rest) (.alt e f) n' (Nat.max d d')

/-- What an expression repeats is not nullable. -/
def Expr.RepeatsConsume : Expr → Prop
  | leaf _ | anchor _ => True
  | seq a b | alt a b => a.RepeatsConsume ∧ b.RepeatsConsume
  | capture _ e => e.RepeatsConsume
  | repetition e _ => e.nullable = false ∧ e.RepeatsConsume

variable {c : Category} {n n' d : Nat} {tokens : List TokenKind} {e : Expr}

/-- Each `<` takes a number. -/
theorem Phrase.eq_add_count (h : Phrase c n tokens e n' d) :
    n' = n + tokens.count .captureOpen := by
  induction h with
  | byte | set | anyByte | inputStart | inputEnd => rfl
  | group _ ih => simpa using ih
  | capture _ ih =>
    rw [ih]
    simp
    omega
  | single _ ih | one _ ih | last _ ih => exact ih
  | quantified q _ ih => simpa using ih
  | more _ _ ih ih' | either _ _ ih ih' =>
    rw [ih', ih]
    simp
    omega

theorem Phrase.le (h : Phrase c n tokens e n' d) : n ≤ n' :=
  h.eq_add_count ▸ Nat.le_add_right ..

/-- What is derived is a phrase, and its repetitions consume. -/
theorem Derives.phrase (h : Derives c n tokens e n') :
    ∃ d, Phrase c n tokens e n' d ∧ e.RepeatsConsume := by
  induction h with
  | byte n b => exact ⟨0, .byte n b, trivial⟩
  | set n s => exact ⟨0, .set n s, trivial⟩
  | anyByte n => exact ⟨0, .anyByte n, trivial⟩
  | inputStart n => exact ⟨0, .inputStart n, trivial⟩
  | inputEnd n => exact ⟨0, .inputEnd n, trivial⟩
  | group _ ih =>
    obtain ⟨d, h, he⟩ := ih
    exact ⟨d + 1, .group h, he⟩
  | capture _ _ ih =>
    obtain ⟨d, h, he⟩ := ih
    exact ⟨d + 1, .capture h, he⟩
  | single _ ih =>
    obtain ⟨d, h, he⟩ := ih
    exact ⟨d, .single h, he⟩
  | quantified q _ hnull ih =>
    obtain ⟨d, h, he⟩ := ih
    exact ⟨d, .quantified q h, hnull, he⟩
  | one _ ih =>
    obtain ⟨d, h, he⟩ := ih
    exact ⟨d, .one h, he⟩
  | more _ _ ih ih' =>
    obtain ⟨d, h, he⟩ := ih
    obtain ⟨d', h', hf⟩ := ih'
    exact ⟨_, .more h h', he, hf⟩
  | last _ ih =>
    obtain ⟨d, h, he⟩ := ih
    exact ⟨d, .last h, he⟩
  | either _ _ ih ih' =>
    obtain ⟨d, h, he⟩ := ih
    obtain ⟨d', h', hf⟩ := ih'
    exact ⟨_, .either h h', he, hf⟩

/-- And a phrase with no more captures than a byte counts is derived, if its repetitions consume. -/
theorem Phrase.derives (h : Phrase c n tokens e n' d) (hn : n' ≤ 255) (he : e.RepeatsConsume) :
    Derives c n tokens e n' := by
  induction h with
  | byte n b => exact .byte n b
  | set n s => exact .set n s
  | anyByte n => exact .anyByte n
  | inputStart n => exact .inputStart n
  | inputEnd n => exact .inputEnd n
  | group _ ih => exact .group (ih hn he)
  | capture h ih => exact .capture (Nat.lt_of_lt_of_le h.le hn) (ih hn he)
  | single _ ih => exact .single (ih hn he)
  | quantified q _ ih => exact .quantified q (ih hn he.2) he.1
  | one _ ih => exact .one (ih hn he)
  | more _ h' ih ih' => exact .more (ih (Nat.le_trans h'.le hn) he.1) (ih' hn he.2)
  | last _ ih => exact .last (ih hn he)
  | either _ h' ih ih' => exact .either (ih (Nat.le_trans h'.le hn) he.1) (ih' hn he.2)

end BoundedRegex
