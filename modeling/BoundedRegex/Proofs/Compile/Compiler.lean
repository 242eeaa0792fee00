import BoundedRegex.Proofs.Compile.Emission

/-!
# Compiled patterns

A pattern that compiles has an expression: its tokens derive one, the code is the code of the
expression with an instruction behind it that accepts, and the scratch depth is the peak of the
expression (`Compiler.compile_derives`).
-/

namespace BoundedRegex

namespace Emission

/-- A compilation has read some tokens. -/
def Reads (E : Emission) (tokens : List TokenKind) : Prop :=
  ∃ (r : Reading) (around : Around) (ts us : List TokenKind) (n : Nat),
    tokens = ts ++ us ∧ around.Reads ts n ∧ r.Reads n us E.captures ∧ E.Shows r around

namespace Reads

variable {E E' : Emission} {tokens : List TokenKind}

theorem start (buffer : List UInt8) : ({ buffer := .ofRoom buffer } : Emission).Reads [] :=
  ⟨{}, [], [], [], 0, rfl, .none, Reading.reads_nil 0, rfl, .empty 0, trivial⟩

/-- An element that is a single instruction. -/
theorem element {i : Instr} {e : Expr} {kind : TokenKind} {position : Nat} (h : E.Reads tokens)
    (hcode : i.encode = e.code) (hkind : ∀ n, Derives .element n [kind] e n)
    (hE : E.element position i e.footprint = .ok E') : E'.Reads (tokens ++ [kind]) := by
  obtain ⟨r, around, ts, us, n, rfl, haround, hr, hshows⟩ := h
  obtain ⟨hshows', hcaptures⟩ := hshows.element hcode hE
  refine ⟨r.place e, around, ts, us ++ [kind], n, List.append_assoc .., haround, ?_, hshows'⟩
  rw [hcaptures]
  exact hr.place (hkind _)

theorem quantify {q : Quantifier} {position : Nat} (h : E.Reads tokens)
    (hE : E.quantify position q = .ok E') : E'.Reads (tokens ++ [.quantifier q]) := by
  obtain ⟨r, around, ts, us, n, rfl, haround, hr, hshows⟩ := h
  obtain ⟨e, ho, hnull, hshows', hcaptures⟩ := hshows.quantify hE
  refine ⟨r.quantify e q, around, ts, us ++ [.quantifier q], n, List.append_assoc .., haround, ?_,
    hshows'⟩
  rw [hcaptures]
  exact hr.quantify ho hnull q

theorem alternate {position : Nat} (h : E.Reads tokens) (hE : E.alternate position = .ok E') :
    E'.Reads (tokens ++ [.alternation]) := by
  obtain ⟨r, around, ts, us, n, rfl, haround, hr, hshows⟩ := h
  obtain ⟨e, hs, hshows', hcaptures⟩ := hshows.alternate hE
  refine ⟨r.alternate e, around, ts, us ++ [.alternation], n, List.append_assoc .., haround, ?_,
    hshows'⟩
  rw [hcaptures]
  exact hr.alternate hs

theorem enter {limit position : Nat} {capturing : Bool} (h : E.Reads tokens)
    (hE : E.enter limit position capturing = .ok E') :
    E'.Reads (tokens ++ [if capturing then .captureOpen else .groupOpen]) := by
  obtain ⟨r, around, ts, us, n, rfl, haround, hr, hshows⟩ := h
  rcases hshows.enter hE with ⟨rfl, hshows', hcaptures⟩ | ⟨rfl, hlt, hshows', hcaptures⟩
  · refine ⟨{}, _, _, [], E.captures, ?_, .group haround hr, ?_, hshows'⟩
    · simp only [List.append_assoc, List.append_nil]
      rfl
    · rw [hcaptures]
      exact Reading.reads_nil _
  · refine ⟨{}, _, _, [], E.captures + 1, ?_, .capture haround hr hlt, ?_, hshows'⟩
    · simp only [List.append_assoc, List.append_nil]
      rfl
    · rw [hcaptures]
      exact Reading.reads_nil _

theorem leave {position : Nat} {capturing : Bool} (h : E.Reads tokens)
    (hE : E.leave position capturing = .ok E') :
    E'.Reads (tokens ++ [if capturing then .captureClose else .groupClose]) := by
  obtain ⟨r, around, ts, us, n, rfl, haround, hr, hshows⟩ := h
  cases haround with
  | none =>
    have hopenings := hshows.openings
    unfold Emission.leave at hE
    cases ho : E.openings with
    | nil => rw [ho] at hE; cases hE
    | cons o rest => rw [ho] at hopenings; exact hopenings.elim
  | group haround houter =>
    obtain ⟨e, hs, hcaptures, ⟨-, rfl, hshows'⟩ | ⟨_, hindex, -, -⟩⟩ := hshows.leave hE
    · have hread := houter.place (.group (hr.alternation hs))
      rw [← hcaptures] at hread
      refine ⟨_, _, _, _, _, ?_, haround, hread, hshows'⟩
      simp only [List.append_assoc, List.cons_append]
      rfl
    · cases hindex
  | capture haround houter hlt =>
    obtain ⟨e, hs, hcaptures, ⟨hindex, -, -⟩ | ⟨index, hindex, rfl, hshows'⟩⟩ := hshows.leave hE
    · cases hindex
    · cases hindex
      have hread := houter.place (.capture hlt (hr.alternation hs))
      rw [← hcaptures] at hread
      refine ⟨_, _, _, _, _, ?_, haround, hread, hshows'⟩
      simp only [List.append_assoc, List.cons_append]
      rfl

/-- Every token is read. -/
theorem feed {limit : Nat} {t : Token} (h : E.Reads tokens) (hE : E.feed limit t = .ok E') :
    E'.Reads (tokens ++ [t.kind]) := by
  unfold Emission.feed at hE
  cases hk : t.kind with
  | byte b => rw [hk] at hE; exact h.element (e := .leaf (.byte b)) rfl (fun n => .byte n b) hE
  | set s => rw [hk] at hE; exact h.element (e := .leaf (.set s)) rfl (fun n => .set n s) hE
  | anyByte => rw [hk] at hE; exact h.element (e := .leaf .anyByte) rfl .anyByte hE
  | inputStart => rw [hk] at hE; exact h.element (e := .anchor .start) rfl .inputStart hE
  | inputEnd => rw [hk] at hE; exact h.element (e := .anchor .stop) rfl .inputEnd hE
  | groupOpen => rw [hk] at hE; exact h.enter hE
  | captureOpen => rw [hk] at hE; exact h.enter hE
  | groupClose => rw [hk] at hE; exact h.leave hE
  | captureClose => rw [hk] at hE; exact h.leave hE
  | alternation => rw [hk] at hE; exact h.alternate hE
  | quantifier q => rw [hk] at hE; exact h.quantify hE

theorem foldlM_feed {limit : Nat} {list : List Token} (h : E.Reads tokens)
    (hE : list.foldlM (Emission.feed limit) E = .ok E') :
    E'.Reads (tokens ++ list.map (·.kind)) := by
  induction list generalizing E tokens with
  | nil =>
    cases hE
    rw [List.map_nil, List.append_nil]
    exact h
  | cons t rest ih =>
    rw [List.foldlM_cons] at hE
    obtain ⟨E₁, hfeed, hE⟩ := bind_eq_ok hE
    have hrest := ih (h.feed hfeed) hE
    rw [List.append_assoc] at hrest
    exact hrest

/-- At the end the code is that of an expression which the tokens derive. -/
theorem finish {length : Nat} {f : Footprint} (h : E.Reads tokens)
    (hE : E.finish length = .ok (f, E')) :
    ∃ e, Derives .alternation 0 tokens e E'.captures ∧ f = e.footprint ∧
      E'.buffer.code.toList = e.code ++ Instr.accept.encode := by
  obtain ⟨r, around, ts, us, n, rfl, haround, hr, hshows⟩ := h
  unfold Emission.finish at hE
  obtain ⟨⟨g, E₁⟩, hclose, hE⟩ := bind_eq_ok hE
  obtain ⟨e, hs, rfl, hcode, hcaptures, hopenings⟩ := hshows.closeLevel hclose
  have hshown := hshows.openings
  dsimp only at hE
  cases ho : E.openings with
  | cons o rest => rw [hopenings, ho] at hE; cases hE
  | nil =>
    rw [hopenings, ho] at hE
    rw [ho] at hshown
    cases haround with
    | group => exact hshown.elim
    | capture => exact hshown.elim
    | none =>
      obtain ⟨E₂, hwrite, hE⟩ := bind_eq_ok hE
      obtain ⟨b, hb, rfl⟩ := write_eq hwrite
      cases hE
      refine ⟨_, ?_, rfl, ?_⟩
      · show Derives .alternation 0 us _ E₁.captures
        rw [hcaptures]
        exact hr.alternation hs
      · show b.code.toList = _
        rw [CodeBuffer.emit_code hb, hcode]
        rfl

end Reads

end Emission

/-- The kinds of the tokens of a pattern. -/
def Lexemes.kinds (pattern : List UInt8) : List TokenKind :=
  (Lexemes.ofPattern pattern).tokens.map (·.kind)

theorem Lexemes.inOrder_kinds {pattern : List UInt8} : ∀ t ∈ kinds pattern, t.InOrder := by
  intro t ht
  obtain ⟨u, hu, rfl⟩ := List.mem_map.1 ht
  exact inOrder_of_mem hu

theorem Lexemes.writable_kinds {pattern : List UInt8} {q : Quantifier}
    (h : .quantifier q ∈ kinds pattern) : TokenKind.Writable q.min q.max := by
  obtain ⟨u, hu, hkind⟩ := List.mem_map.1 h
  exact writable_of_mem hu hkind

/-- As many captures as a pattern has are what it is compiled with. -/
theorem Derives.captures_eq {pattern : List UInt8} {e : Expr} {n : Nat} {r : Regex}
    (h : Derives .alternation 0 (Lexemes.kinds pattern) e n) (hr : r.captures = .ofNat n) :
    r.captures.toNat = n := by
  rw [hr, UInt8.toNat_ofNat_of_lt' (Nat.lt_succ_of_le (h.le_255 (Nat.zero_le _)))]

/-- **A pattern that compiles stands for an expression**, and its code is the code of that. -/
theorem Compiler.compile_derives {c : Compiler} {pattern buffer : List UInt8} {r : Regex}
    (h : c.compile pattern buffer = .ok r) :
    ∃ e n, Derives .alternation 0 (Lexemes.kinds pattern) e n ∧ e.WellFormed ∧
      r.code = e.code ++ Instr.accept.encode ∧ r.scratchDepth.toNat = e.peak ∧
      r.captures = .ofNat n := by
  obtain ⟨E, hfold, h⟩ := bind_eq_ok h
  obtain ⟨length, hending, h⟩ := bind_eq_ok h
  obtain ⟨⟨f, E'⟩, hfinish, h⟩ := bind_eq_ok h
  obtain ⟨e, hderives, rfl, hcode⟩ :=
    ((Emission.Reads.start buffer).foldlM_feed hfold).finish hfinish
  refine ⟨e, E'.captures, hderives, (hderives.wellFormed Lexemes.inOrder_kinds).2.2, ?_⟩
  unfold Emission.toRegex at h
  dsimp only at h
  split at h
  · cases h
  · next hpeak =>
    split at h
    · cases h
    · cases h
      refine ⟨hcode, ?_, rfl⟩
      show (UInt16.ofNat e.footprint.peak).toNat = e.peak
      rw [UInt16.toNat_ofNat_of_lt' (Nat.lt_of_not_le hpeak),
        Expr.peak_eq_of_lt (Nat.lt_of_not_le hpeak)]

end BoundedRegex
