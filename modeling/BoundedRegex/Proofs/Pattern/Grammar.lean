import BoundedRegex.Pattern.Lexeme
import BoundedRegex.Proofs.Pattern.Counts
import BoundedRegex.Proofs.Pattern.Expr

/-!
# The grammar of patterns

`Derives c n tokens e n'` says that some tokens make up a phrase of category `c` that stands for
the expression `e`, and that the captures of the phrase are numbered from `n` up to `n'`: each
`<` takes the next number.  Brackets that do not capture leave nothing in the expression, and what
may match the empty string is not repeated.
-/

namespace BoundedRegex

/-- The categories of phrases, the widest first. -/
inductive Category where
  | alternation
  | sequence
  | atom
  | element

/-- Some tokens are a phrase that stands for an expression. -/
inductive Derives : Category → Nat → List TokenKind → Expr → Nat → Prop where
  | byte (n : Nat) (b : UInt8) : Derives .element n [.byte b] (.leaf (.byte b)) n
  | set (n : Nat) (s : ByteSet) : Derives .element n [.set s] (.leaf (.set s)) n
  | anyByte (n : Nat) : Derives .element n [.anyByte] (.leaf .anyByte) n
  | inputStart (n : Nat) : Derives .element n [.inputStart] (.anchor .start) n
  | inputEnd (n : Nat) : Derives .element n [.inputEnd] (.anchor .stop) n
  | group {n n' : Nat} {tokens : List TokenKind} {e : Expr}
      (h : Derives .alternation n tokens e n') :
      Derives .element n (.groupOpen :: tokens ++ [.groupClose]) e n'
  | capture {n n' : Nat} {tokens : List TokenKind} {e : Expr} (hn : n < 255)
      (h : Derives .alternation (n + 1) tokens e n') :
      Derives .element n (.captureOpen :: tokens ++ [.captureClose]) (.capture (.ofNat n) e) n'
  | single {n n' : Nat} {tokens : List TokenKind} {e : Expr} (h : Derives .element n tokens e n') :
      Derives .atom n tokens e n'
  | quantified {n n' : Nat} {tokens : List TokenKind} {e : Expr} (q : Quantifier)
      (h : Derives .element n tokens e n') (he : e.nullable = false) :
      Derives .atom n (tokens ++ [.quantifier q]) (.repetition e q) n'
  | one {n n' : Nat} {tokens : List TokenKind} {e : Expr} (h : Derives .atom n tokens e n') :
      Derives .sequence n tokens e n'
  | more {n n₁ n' : Nat} {tokens rest : List TokenKind} {e f : Expr}
      (h : Derives .sequence n tokens e n₁) (h' : Derives .atom n₁ rest f n') :
      Derives .sequence n (tokens ++ rest) (.seq e f) n'
  | last {n n' : Nat} {tokens : List TokenKind} {e : Expr} (h : Derives .sequence n tokens e n') :
      Derives .alternation n tokens e n'
  | either {n n₁ n' : Nat} {tokens rest : List TokenKind} {e f : Expr}
      (h : Derives .sequence n tokens e n₁) (h' : Derives .alternation n₁ rest f n') :
      Derives .alternation n (tokens ++ .alternation :: rest) (.alt e f) n'

/-! ### Quantifiers -/

/-- Bounds that allow an iteration, the lower one not above the upper one. -/
def BoundsInOrder (min max : UInt8) : Prop :=
  0 < max.toNat ∧ (max = unboundedCount ∨ min.toNat ≤ max.toNat)

/-- The bounds of the quantifier that a token may be are in order. -/
def TokenKind.InOrder : TokenKind → Prop
  | .quantifier q => BoundsInOrder q.min q.max
  | _ => True

/-! ### What a phrase stands for -/

/-- The captures of a phrase are numbered without gaps or repetitions, and the expression is
well-formed. -/
theorem Derives.wellFormed {c : Category} {n n' : Nat} {tokens : List TokenKind} {e : Expr}
    (h : Derives c n tokens e n') (hq : ∀ t ∈ tokens, t.InOrder) :
    n ≤ n' ∧ (∀ i ∈ e.indices, n ≤ i.toNat ∧ i.toNat < n') ∧ e.WellFormed := by
  induction h with
  | byte | set | anyByte | inputStart | inputEnd =>
    exact ⟨Nat.le_refl _, fun i hi => (nomatch hi), trivial⟩
  | group _ ih =>
    exact ih fun t ht => hq t (List.mem_append_left _ (List.mem_cons_of_mem _ ht))
  | @capture n n' tokens e hn _ ih =>
    obtain ⟨hle, hids, hwf⟩ := ih fun t ht =>
      hq t (List.mem_append_left _ (List.mem_cons_of_mem _ ht))
    have hindex : (UInt8.ofNat n).toNat = n :=
      UInt8.toNat_ofNat_of_lt' (Nat.lt_trans hn (by decide))
    refine ⟨by omega, fun i hi => ?_, fun hmem => ?_, hwf⟩
    · rcases List.mem_cons.1 hi with rfl | hi
      · omega
      · have := hids i hi
        omega
    · have := hids _ hmem
      omega
  | single _ ih | one _ ih | last _ ih => exact ih hq
  | quantified q _ he ih =>
    obtain ⟨hle, hids, hwf⟩ := ih fun t ht => hq t (List.mem_append_left _ ht)
    obtain ⟨hmax, hle'⟩ := hq (.quantifier q) (List.mem_append_right _ List.mem_cons_self)
    exact ⟨hle, hids, he, hmax, hle', hwf⟩
  | more _ _ ih ih' =>
    obtain ⟨hle, hids, hwf⟩ := ih fun t ht => hq t (List.mem_append_left _ ht)
    obtain ⟨hle', hids', hwf'⟩ := ih' fun t ht => hq t (List.mem_append_right _ ht)
    refine ⟨Nat.le_trans hle hle', ?_, hwf, hwf'⟩
    intro i hi
    rcases List.mem_append.1 hi with hi | hi
    · have := hids i hi
      omega
    · have := hids' i hi
      omega
  | either _ _ ih ih' =>
    obtain ⟨hle, hids, hwf⟩ := ih fun t ht => hq t (List.mem_append_left _ ht)
    obtain ⟨hle', hids', hwf'⟩ := ih' fun t ht =>
      hq t (List.mem_append_right _ (List.mem_cons_of_mem _ ht))
    refine ⟨Nat.le_trans hle hle', ?_, hwf, hwf'⟩
    intro i hi
    rcases List.mem_append.1 hi with hi | hi
    · have := hids i hi
      omega
    · have := hids' i hi
      omega

/-- There are no more captures than a byte can number. -/
theorem Derives.le_255 {c : Category} {n n' : Nat} {tokens : List TokenKind} {e : Expr}
    (h : Derives c n tokens e n') (hn : n ≤ 255) : n' ≤ 255 := by
  induction h with
  | byte | set | anyByte | inputStart | inputEnd => exact hn
  | group _ ih | single _ ih | quantified _ _ _ ih | one _ ih | last _ ih => exact ih hn
  | capture hlt _ ih => exact ih hlt
  | more _ _ ih ih' | either _ _ ih ih' => exact ih' (ih hn)

/-- The quantifiers of an expression. -/
def Expr.quantifiers : Expr → List Quantifier
  | leaf _ | anchor _ => []
  | seq a b | alt a b => a.quantifiers ++ b.quantifiers
  | capture _ e => e.quantifiers
  | repetition e q => q :: e.quantifiers

/-- The quantifiers of an expression stand among the tokens. -/
theorem Derives.mem_of_quantifiers {c : Category} {n n' : Nat} {tokens : List TokenKind} {e : Expr}
    (h : Derives c n tokens e n') {q : Quantifier} (hq : q ∈ e.quantifiers) :
    .quantifier q ∈ tokens := by
  induction h with
  | byte | set | anyByte | inputStart | inputEnd => cases hq
  | group _ ih | capture _ _ ih => exact List.mem_append_left _ (List.mem_cons_of_mem _ (ih hq))
  | single _ ih | one _ ih | last _ ih => exact ih hq
  | quantified q' _ _ ih =>
    rcases List.mem_cons.1 hq with rfl | hq
    · exact List.mem_append_right _ List.mem_cons_self
    · exact List.mem_append_left _ (ih hq)
  | more _ _ ih ih' =>
    rcases List.mem_append.1 hq with hq | hq
    · exact List.mem_append_left _ (ih hq)
    · exact List.mem_append_right _ (ih' hq)
  | either _ _ ih ih' =>
    rcases List.mem_append.1 hq with hq | hq
    · exact List.mem_append_left _ (ih hq)
    · exact List.mem_append_right _ (List.mem_cons_of_mem _ (ih' hq))

/-! ### Tokens of a pattern -/

namespace TokenKind

/-- The bounds in braces are in order: where the upper one is not greater, it is the lower one or
more, and not zero. -/
theorem bounds?_inOrder {body : List UInt8} {min max : UInt8}
    (h : bounds? body = some (min, max)) : BoundsInOrder min max := by
  obtain ⟨hpos, hle⟩ := (counts_of_bounds? h).inOrder
  exact ⟨hpos, Or.inr hle⟩

/-- The lower bound in braces is a count. -/
theorem bounds?_min_ne {body : List UInt8} {min max : UInt8}
    (h : bounds? body = some (min, max)) : min ≠ unboundedCount := by
  rintro rfl
  exact absurd (counts_of_bounds? h).le.1 (by decide)

/-- The bounds that a quantifier can have: those of the short forms, and those in braces. -/
def Writable (min max : UInt8) : Prop :=
  (min, max) ∈ [(0, 1), (0, unboundedCount), (1, unboundedCount)] ∨
    ∃ body, bounds? body = some (min, max)

theorem Writable.inOrder {min max : UInt8} (h : Writable min max) : BoundsInOrder min max := by
  rcases h with h | ⟨body, h⟩
  · simp only [List.mem_cons, Prod.mk.injEq, List.not_mem_nil, or_false] at h
    rcases h with ⟨rfl, rfl⟩ | ⟨rfl, rfl⟩ | ⟨rfl, rfl⟩
    · exact ⟨by decide, Or.inr (by decide)⟩
    · exact ⟨by decide, Or.inl rfl⟩
    · exact ⟨by decide, Or.inl rfl⟩
  · exact bounds?_inOrder h

theorem Writable.min_ne {min max : UInt8} (h : Writable min max) : min ≠ unboundedCount := by
  rcases h with h | ⟨body, h⟩
  · simp only [List.mem_cons, Prod.mk.injEq, List.not_mem_nil, or_false] at h
    rcases h with ⟨rfl, -⟩ | ⟨rfl, -⟩ | ⟨rfl, -⟩ <;> decide
  · exact bounds?_min_ne h

theorem writable_of_quantified {min max : UInt8} {n m : Nat} {rest : List UInt8} {q : Quantifier}
    (h : Writable min max) (hq : quantified min max n rest = (.quantifier q, m)) :
    Writable q.min q.max := by
  unfold quantified at hq
  split at hq <;> cases hq <;> exact h

theorem writable_of_braces {rest : List UInt8} {min max : UInt8} {n : Nat}
    (h : braces rest = .ok (min, max, n)) : Writable min max := by
  obtain ⟨body, tail, -, -, hcounts, -⟩ := exists_of_braces h
  exact Or.inr ⟨body, bounds?_of_counts hcounts⟩

/-- The quantifiers that are read have bounds that can be written. -/
theorem writable_of_scan {b : UInt8} {rest : List UInt8} {q : Quantifier} {n : Nat}
    (h : scan b rest = .ok (.quantifier q, n)) : Writable q.min q.max := by
  unfold scan at h
  split at h
  case h_11 => exact writable_of_quantified (Or.inl (by decide)) (Except.ok.inj h)
  case h_12 => exact writable_of_quantified (Or.inl (by decide)) (Except.ok.inj h)
  case h_13 => exact writable_of_quantified (Or.inl (by decide)) (Except.ok.inj h)
  case h_14 =>
    split at h
    · next hb => exact writable_of_quantified (writable_of_braces hb) (Except.ok.inj h)
    · cases h
  case h_15 => split at h <;> cases h
  case h_16 => split at h <;> cases h
  all_goals cases h

end TokenKind

namespace Lexemes

theorem ofText_nil (pos : Nat) : ofText pos [] = ⟨[], .ok pos⟩ := by
  rw [ofText]

theorem ofText_cons {pos n : Nat} {b : UInt8} {rest : List UInt8} {kind : TokenKind} {ls : Lexemes}
    (hscan : TokenKind.scan b rest = .ok (kind, n))
    (hrest : ofText (pos + n) (rest.drop (n - 1)) = ls) :
    ofText pos (b :: rest) = cons ⟨kind, pos⟩ ls := by
  rw [ofText, hscan, ← hrest]

end Lexemes

/-- The quantifiers of a pattern have bounds that can be written. -/
theorem Lexemes.writable_of_mem {pos : Nat} {text : List UInt8} {t : Token} {q : Quantifier}
    (h : t ∈ (ofText pos text).tokens) (hq : t.kind = .quantifier q) :
    TokenKind.Writable q.min q.max := by
  induction pos, text using ofText.induct with
  | case1 pos => rw [ofText] at h; cases h
  | case2 pos b rest e hscan => rw [ofText, hscan] at h; cases h
  | case3 pos b rest kind n hscan ih =>
    rw [ofText, hscan] at h
    rcases List.mem_cons.1 h with rfl | h
    · cases hq
      exact TokenKind.writable_of_scan hscan
    · exact ih h

/-- All quantifiers of a pattern are in order. -/
theorem Lexemes.inOrder_of_mem {pos : Nat} {text : List UInt8} {t : Token}
    (h : t ∈ (ofText pos text).tokens) : t.kind.InOrder := by
  cases hkind : t.kind with
  | quantifier q => exact (writable_of_mem h hkind).inOrder
  | _ => trivial

end BoundedRegex
