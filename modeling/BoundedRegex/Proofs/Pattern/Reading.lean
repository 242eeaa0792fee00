import BoundedRegex.Proofs.Pattern.Grammar

/-!
# What has been read of a pattern

Between two tokens the compiler knows finished alternatives, atoms and an operand for each bracket
that is open.  A `Reading` holds the expressions that they stand for, and `Reading.Reads` says from
which tokens they come.
-/

namespace BoundedRegex

/-- The inside of a bracket, as far as it has been read. -/
structure Reading where
  /-- The finished alternatives, the last of them in front. -/
  earlier : List Expr := []
  /-- The finished atoms of the open alternative. -/
  atoms : Option Expr := none
  operand : Option Expr := none

/-- The alternation of some alternatives, the last of them in front, and one that comes behind
them. -/
def Expr.alternation : List Expr → Expr → Expr
  | [], e => e
  | f :: earlier, e => alternation earlier (.alt f e)

/-- The tokens of an expression, or no tokens where there is none. -/
def DerivesOption (c : Category) (n : Nat) (tokens : List TokenKind) : Option Expr → Nat → Prop
  | some e, n' => Derives c n tokens e n'
  | none, n' => tokens = [] ∧ n' = n

/-- The tokens of finished alternatives, the last of which is in front. -/
inductive DerivesEarlier : Nat → List TokenKind → List Expr → Nat → Prop where
  | none (n : Nat) : DerivesEarlier n [] [] n
  | more {n n₁ n' : Nat} {tokens rest : List TokenKind} {e : Expr} {earlier : List Expr}
      (h : DerivesEarlier n tokens earlier n₁) (h' : Derives .sequence n₁ rest e n') :
      DerivesEarlier n (tokens ++ (rest ++ [.alternation])) (e :: earlier) n'

theorem DerivesEarlier.alternation {n n₁ n' : Nat} {tokens rest : List TokenKind} {e : Expr}
    {earlier : List Expr} (h : DerivesEarlier n tokens earlier n₁)
    (h' : Derives .alternation n₁ rest e n') :
    Derives .alternation n (tokens ++ rest) (Expr.alternation earlier e) n' := by
  induction h generalizing rest e n' with
  | none => exact h'
  | more _ hs ih =>
    have hboth := ih (.either hs h')
    rw [List.append_assoc, List.append_assoc, List.singleton_append]
    exact hboth

namespace Reading

variable {r : Reading} {n n' : Nat} {tokens : List TokenKind} {e : Expr}

/-- The open alternative, if it has any atoms. -/
def sequence (r : Reading) : Option Expr :=
  match r.atoms, r.operand with
  | some e, some f => some (.seq e f)
  | none, some f => some f
  | atoms, none => atoms

/-- Adds an element. -/
def place (r : Reading) (e : Expr) : Reading :=
  { r with atoms := r.sequence, operand := some e }

/-- Repeats the operand `e`. -/
def quantify (r : Reading) (e : Expr) (q : Quantifier) : Reading :=
  { r with atoms := { r with operand := some (.repetition e q) }.sequence, operand := none }

/-- Ends the open alternative `e`. -/
def alternate (r : Reading) (e : Expr) : Reading :=
  { earlier := e :: r.earlier }

/-- Some tokens make up what has been read. -/
def Reads (r : Reading) (n : Nat) (tokens : List TokenKind) (n' : Nat) : Prop :=
  ∃ n₁ n₂ ts us vs, tokens = ts ++ (us ++ vs) ∧ DerivesEarlier n ts r.earlier n₁ ∧
    DerivesOption .sequence n₁ us r.atoms n₂ ∧ DerivesOption .element n₂ vs r.operand n'

theorem reads_nil (n : Nat) : ({} : Reading).Reads n [] n :=
  ⟨n, n, [], [], [], rfl, .none n, ⟨rfl, rfl⟩, ⟨rfl, rfl⟩⟩

/-- An atom ends a sequence, be it the first one. -/
theorem derives_sequence {r : Reading} {n n₁ n' : Nat} {ts us : List TokenKind} {f : Expr}
    (h : DerivesOption .sequence n ts r.atoms n₁) (h' : Derives .atom n₁ us f n') :
    DerivesOption .sequence n (ts ++ us) { r with operand := some f }.sequence n' := by
  cases ha : r.atoms with
  | none =>
    rw [ha] at h
    obtain ⟨rfl, rfl⟩ := h
    simp only [sequence]
    exact .one h'
  | some e =>
    rw [ha] at h
    simp only [sequence]
    exact .more h h'

theorem Reads.sequence (h : r.Reads n tokens n') :
    ∃ n₁ ts us, tokens = ts ++ us ∧ DerivesEarlier n ts r.earlier n₁ ∧
      DerivesOption .sequence n₁ us r.sequence n' := by
  obtain ⟨n₁, n₂, ts, us, vs, rfl, hearlier, hatoms, hoperand⟩ := h
  refine ⟨n₁, ts, us ++ vs, rfl, hearlier, ?_⟩
  cases ho : r.operand with
  | none =>
    rw [ho] at hoperand
    obtain ⟨rfl, rfl⟩ := hoperand
    have hsequence : r.sequence = r.atoms := by
      simp only [Reading.sequence, ho]
    rw [hsequence, List.append_nil]
    exact hatoms
  | some f =>
    rw [ho] at hoperand
    have hsequence := derives_sequence hatoms (.single hoperand)
    rw [← ho] at hsequence
    exact hsequence

theorem Reads.place {n₁ : Nat} {rest : List TokenKind} (h : r.Reads n tokens n₁)
    (he : Derives .element n₁ rest e n') : (r.place e).Reads n (tokens ++ rest) n' := by
  obtain ⟨n₀, ts, us, rfl, hearlier, hsequence⟩ := h.sequence
  exact ⟨n₀, n₁, ts, us, rest, List.append_assoc .., hearlier, hsequence, he⟩

theorem Reads.quantify (h : r.Reads n tokens n') (ho : r.operand = some e)
    (he : e.nullable = false) (q : Quantifier) :
    (r.quantify e q).Reads n (tokens ++ [.quantifier q]) n' := by
  obtain ⟨n₁, n₂, ts, us, vs, rfl, hearlier, hatoms, hoperand⟩ := h
  rw [ho] at hoperand
  refine ⟨n₁, n', ts, us ++ (vs ++ [.quantifier q]), [], ?_, hearlier,
    derives_sequence hatoms (.quantified q hoperand he), rfl, rfl⟩
  simp only [List.append_assoc, List.append_nil]

theorem Reads.alternate (h : r.Reads n tokens n') (hs : r.sequence = some e) :
    (r.alternate e).Reads n (tokens ++ [.alternation]) n' := by
  obtain ⟨n₁, ts, us, rfl, hearlier, hsequence⟩ := h.sequence
  rw [hs] at hsequence
  refine ⟨n', n', ts ++ (us ++ [.alternation]), [], [], ?_, .more hearlier hsequence, ⟨rfl, rfl⟩,
    ⟨rfl, rfl⟩⟩
  simp only [List.append_assoc, List.append_nil]

theorem Reads.alternation (h : r.Reads n tokens n') (hs : r.sequence = some e) :
    Derives .alternation n tokens (Expr.alternation r.earlier e) n' := by
  obtain ⟨n₁, ts, us, rfl, hearlier, hsequence⟩ := h.sequence
  rw [hs] at hsequence
  exact hearlier.alternation (.last hsequence)

end Reading

/-! ### Brackets -/

/-- The brackets that are open, the innermost first: the index of the capture, for one that
captures, and what had been read around it. -/
abbrev Around := List (Option UInt8 × Reading)

/-- Some tokens make up what has been read around a bracket, and open it. -/
inductive Around.Reads : Around → List TokenKind → Nat → Prop where
  | none : Reads [] [] 0
  | group {around : Around} {r : Reading} {n n' : Nat} {tokens rest : List TokenKind}
      (h : Reads around tokens n) (hr : r.Reads n rest n') :
      Reads ((none, r) :: around) (tokens ++ (rest ++ [.groupOpen])) n'
  | capture {around : Around} {r : Reading} {n n' : Nat} {tokens rest : List TokenKind}
      (h : Reads around tokens n) (hr : r.Reads n rest n') (hn : n' < 255) :
      Reads ((some (.ofNat n'), r) :: around) (tokens ++ (rest ++ [.captureOpen])) (n' + 1)

end BoundedRegex
