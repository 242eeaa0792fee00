import BoundedRegex.Proofs.Pattern.Phrase
import BoundedRegex.Proofs.Pattern.Reading

/-!
# The grammar is unambiguous

The tokens of a phrase can be read one by one, each changing what has been read so far in one way
(`Parse.feed`).  Whatever a phrase is derived from, reading it comes to its expression
(`Phrase.feeds`), so that there is one at most (`Phrase.unique`, `Derives.unique`).
-/

namespace BoundedRegex

/-- What has been read, and how many captures have been opened. -/
structure Parse where
  captures : Nat := 0
  level : Reading := {}
  around : Around := []

namespace Parse

/-- Puts an element at the end of the level. -/
def place (p : Parse) (e : Expr) : Parse :=
  { p with level := p.level.place e }

/-- Reads a token; `none` if it cannot stand here. -/
def feed (p : Parse) : TokenKind → Option Parse
  | .byte b => some (p.place (.leaf (.byte b)))
  | .set s => some (p.place (.leaf (.set s)))
  | .anyByte => some (p.place (.leaf .anyByte))
  | .inputStart => some (p.place (.anchor .start))
  | .inputEnd => some (p.place (.anchor .stop))
  | .groupOpen => some { p with level := {}, around := (none, p.level) :: p.around }
  | .captureOpen =>
    some
      { captures := p.captures + 1, level := {}
        around := (some (.ofNat p.captures), p.level) :: p.around }
  | .groupClose =>
    match p.around, p.level.sequence with
    | (none, r) :: around, some e =>
      some { p with level := r.place (.alternation p.level.earlier e), around }
    | _, _ => none
  | .captureClose =>
    match p.around, p.level.sequence with
    | (some index, r) :: around, some e =>
      some { p with level := r.place (.capture index (.alternation p.level.earlier e)), around }
    | _, _ => none
  | .alternation => p.level.sequence.map fun e => { p with level := p.level.alternate e }
  | .quantifier q => p.level.operand.map fun e => { p with level := p.level.quantify e q }

/-- Reads tokens. -/
def feedAll (p : Parse) : List TokenKind → Option Parse
  | [] => some p
  | t :: rest => (p.feed t).bind fun p => p.feedAll rest

theorem feedAll_append (p : Parse) (ts us : List TokenKind) :
    p.feedAll (ts ++ us) = (p.feedAll ts).bind fun p => p.feedAll us := by
  induction ts generalizing p with
  | nil => rfl
  | cons t rest ih =>
    rw [List.cons_append, feedAll, feedAll, Option.bind_assoc]
    exact congrArg _ (funext ih)

end Parse

/-- The open alternative with an atom more. -/
def joinAtom : Option Expr → Expr → Expr
  | some e, f => .seq e f
  | none, f => f

/-- Where a phrase of a category may start: a sequence or an alternation starts a level or an
alternative. -/
def Category.Starts (l : Reading) : Category → Prop
  | .sequence | .alternation => l.sequence = none
  | .atom | .element => True

/-- What a phrase of a category makes of the level in which it starts. -/
def Category.Extends (l l' : Reading) (e : Expr) : Category → Prop
  | .element => l' = l.place e
  | .atom => l'.earlier = l.earlier ∧ l'.sequence = some (joinAtom l.sequence e)
  | .sequence => l'.earlier = l.earlier ∧ l'.sequence = some e
  | .alternation =>
    ∃ f, l'.sequence = some f ∧ Expr.alternation l'.earlier f = .alternation l.earlier e

theorem Reading.sequence_place (r : Reading) (e : Expr) :
    (r.place e).sequence = some (joinAtom r.sequence e) := by
  unfold place
  generalize r.sequence = atoms
  cases atoms <;> rfl

theorem Reading.sequence_quantify_place (r : Reading) (e : Expr) (q : Quantifier) :
    ((r.place e).quantify e q).sequence = some (joinAtom r.sequence (.repetition e q)) := by
  unfold place quantify
  generalize r.sequence = atoms
  cases atoms <;> rfl

/-! ### What rules make of a level -/

namespace Category.Extends

variable {l l₁ l₂ l' : Reading} {e f : Expr}

theorem single (h : Category.element.Extends l l' e) : Category.atom.Extends l l' e := by
  obtain rfl := h
  exact ⟨rfl, l.sequence_place e⟩

theorem quantified (h : Category.element.Extends l l' e) (q : Quantifier) :
    Category.atom.Extends l (l'.quantify e q) (.repetition e q) := by
  obtain rfl := h
  exact ⟨rfl, l.sequence_quantify_place e q⟩

theorem one (h : Category.atom.Extends l l' e) (hl : Category.sequence.Starts l) :
    Category.sequence.Extends l l' e := by
  obtain ⟨hearlier, hsequence⟩ := h
  have hnone : l.sequence = none := hl
  rw [hnone] at hsequence
  exact ⟨hearlier, hsequence⟩

theorem more (h : Category.sequence.Extends l l₁ e) (h' : Category.atom.Extends l₁ l₂ f) :
    Category.sequence.Extends l l₂ (.seq e f) := by
  obtain ⟨hearlier, hsequence⟩ := h
  obtain ⟨hearlier', hsequence'⟩ := h'
  rw [hsequence] at hsequence'
  exact ⟨hearlier'.trans hearlier, hsequence'⟩

theorem last (h : Category.sequence.Extends l l' e) : Category.alternation.Extends l l' e := by
  obtain ⟨hearlier, hsequence⟩ := h
  exact ⟨_, hsequence, by rw [hearlier]⟩

theorem either (h : Category.sequence.Extends l l₁ e)
    (h' : Category.alternation.Extends (l₁.alternate e) l₂ f) :
    Category.alternation.Extends l l₂ (.alt e f) := by
  obtain ⟨g, hg, halternation⟩ := h'
  refine ⟨g, hg, ?_⟩
  rw [halternation, Reading.alternate, Expr.alternation, h.1]

end Category.Extends

/-- Reading a phrase comes to its expression. -/
theorem Phrase.feeds {c : Category} {n n' d : Nat} {tokens : List TokenKind} {e : Expr}
    (h : Phrase c n tokens e n' d) {l : Reading} (hl : c.Starts l) (around : Around) :
    ∃ l', Parse.feedAll ⟨n, l, around⟩ tokens = some ⟨n', l', around⟩ ∧ c.Extends l l' e := by
  induction h generalizing l around with
  | byte | set | anyByte | inputStart | inputEnd => exact ⟨_, rfl, rfl⟩
  | @group n n' _ tokens e _ ih =>
    obtain ⟨l', hfeed, f, hf, he⟩ := ih (l := {}) rfl ((none, l) :: around)
    refine ⟨l.place e, ?_, rfl⟩
    show Parse.feedAll ⟨n, {}, (none, l) :: around⟩ (tokens ++ [.groupClose]) = _
    rw [Parse.feedAll_append, hfeed]
    simp only [Option.bind_some, Parse.feedAll, Parse.feed, hf, he]
    rfl
  | @capture n n' _ tokens e _ ih =>
    obtain ⟨l', hfeed, f, hf, he⟩ := ih (l := {}) rfl ((some (.ofNat n), l) :: around)
    refine ⟨l.place (.capture (.ofNat n) e), ?_, rfl⟩
    show Parse.feedAll ⟨n + 1, {}, (some (.ofNat n), l) :: around⟩ (tokens ++ [.captureClose]) = _
    rw [Parse.feedAll_append, hfeed]
    simp only [Option.bind_some, Parse.feedAll, Parse.feed, hf, he]
    rfl
  | single _ ih =>
    obtain ⟨l', hfeed, hext⟩ := ih trivial around
    exact ⟨l', hfeed, hext.single⟩
  | @quantified n n' _ tokens e q _ ih =>
    obtain ⟨l', hfeed, hext⟩ := ih trivial around
    refine ⟨_, ?_, hext.quantified q⟩
    obtain rfl := hext
    rw [Parse.feedAll_append, hfeed]
    rfl
  | one _ ih =>
    obtain ⟨l', hfeed, hext⟩ := ih trivial around
    exact ⟨l', hfeed, hext.one hl⟩
  | more _ _ ih ih' =>
    obtain ⟨l₁, hfeed, hext⟩ := ih hl around
    obtain ⟨l₂, hfeed', hext'⟩ := ih' (l := l₁) trivial around
    refine ⟨l₂, ?_, hext.more hext'⟩
    rw [Parse.feedAll_append, hfeed]
    exact hfeed'
  | last _ ih =>
    obtain ⟨l', hfeed, hext⟩ := ih hl around
    exact ⟨l', hfeed, hext.last⟩
  | @either n n₁ n' _ _ tokens rest e f _ _ ih ih' =>
    obtain ⟨l₁, hfeed, hext⟩ := ih hl around
    obtain ⟨l₂, hfeed', hext'⟩ := ih' (l := l₁.alternate e) rfl around
    refine ⟨l₂, ?_, hext.either hext'⟩
    rw [Parse.feedAll_append, hfeed, Option.bind_some, Parse.feedAll]
    show ((l₁.sequence.map _).bind _) = _
    rw [hext.2]
    exact hfeed'

/-- **A pattern stands for one expression.** -/
theorem Phrase.unique {n n₁ n₂ d₁ d₂ : Nat} {tokens : List TokenKind} {e₁ e₂ : Expr}
    (h₁ : Phrase .alternation n tokens e₁ n₁ d₁) (h₂ : Phrase .alternation n tokens e₂ n₂ d₂) :
    e₁ = e₂ ∧ n₁ = n₂ := by
  obtain ⟨l₁, hfeed₁, f₁, hs₁, he₁⟩ := h₁.feeds (l := {}) rfl []
  obtain ⟨l₂, hfeed₂, f₂, hs₂, he₂⟩ := h₂.feeds (l := {}) rfl []
  have hparse := Option.some.inj (hfeed₁.symm.trans hfeed₂)
  injection hparse with hn hlevel _
  rw [← hlevel, hs₁] at hs₂
  rw [← Option.some.inj hs₂, ← hlevel, he₁] at he₂
  exact ⟨he₂, hn⟩

theorem Derives.unique {n n₁ n₂ : Nat} {tokens : List TokenKind} {e₁ e₂ : Expr}
    (h₁ : Derives .alternation n tokens e₁ n₁) (h₂ : Derives .alternation n tokens e₂ n₂) :
    e₁ = e₂ ∧ n₁ = n₂ := by
  obtain ⟨d₁, hphrase₁, -⟩ := h₁.phrase
  obtain ⟨d₂, hphrase₂, -⟩ := h₂.phrase
  exact hphrase₁.unique hphrase₂

end BoundedRegex
