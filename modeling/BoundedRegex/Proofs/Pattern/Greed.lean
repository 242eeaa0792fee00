import Mathlib.Data.List.Perm.Basic
import BoundedRegex.Proofs.Code.Generation
import BoundedRegex.Proofs.Pattern.Language
import BoundedRegex.Proofs.Pattern.Phrase

/-!
# Expressions but for their greediness

`Expr.greedily` makes all repetitions of an expression greedy, and two expressions that it makes the
same differ in nothing but the greediness of their repetitions.

* They have the same shape, the same frames and code of the same length.
* A phrase that differs from another in nothing but that is a phrase as well, and stands for an
  expression that differs in nothing but that (`Phrase.of_greedily`).
* They have the same results, each as often, in whatever order, if what they repeat without a bound
  is plain (`Expr.perm_results`).
-/

namespace BoundedRegex

/-- A quantifier with its bounds, greedy. -/
def Quantifier.greedily (q : Quantifier) : Quantifier :=
  { q with greedy := true }

/-- Whether a token is a quantifier. -/
def TokenKind.isQuantifier : TokenKind → Bool
  | .quantifier _ => true
  | _ => false

/-- A token that is greedy if it is a quantifier. -/
def TokenKind.greedily : TokenKind → TokenKind
  | .quantifier q => .quantifier q.greedily
  | t => t

namespace Expr

/-- An expression of which all repetitions are greedy. -/
def greedily : Expr → Expr
  | leaf l => leaf l
  | anchor a => anchor a
  | seq a b => seq a.greedily b.greedily
  | alt a b => alt a.greedily b.greedily
  | capture index e => capture index e.greedily
  | repetition e q => repetition e.greedily q.greedily

section

variable (a b e : Expr)

@[simp] theorem greedily_seq : (seq a b).greedily = seq a.greedily b.greedily := rfl

@[simp] theorem greedily_alt : (alt a b).greedily = alt a.greedily b.greedily := rfl

@[simp] theorem greedily_capture (index : UInt8) :
    (capture index e).greedily = capture index e.greedily := rfl

@[simp] theorem greedily_repetition (q : Quantifier) :
    (repetition e q).greedily = repetition e.greedily q.greedily := rfl

end

/-! ### What does not depend on greediness -/

@[simp] theorem isLeaf_greedily (e : Expr) : e.greedily.isLeaf = e.isLeaf := by
  cases e <;> rfl

@[simp] theorem nullable_greedily (e : Expr) : e.greedily.nullable = e.nullable := by
  induction e with
  | leaf | anchor | repetition => rfl
  | seq a b iha ihb | alt a b iha ihb => simp only [greedily_seq, greedily_alt, nullable, iha, ihb]
  | capture index e ih => exact ih

@[simp] theorem residual_greedily (e : Expr) : e.greedily.residual = e.residual := by
  induction e with
  | leaf | anchor => rfl
  | seq a b iha ihb | alt a b iha ihb => simp only [greedily_seq, greedily_alt, residual, iha, ihb]
  | capture index e ih => simp only [greedily_capture, residual, ih]
  | repetition e q ih => simp only [greedily_repetition, residual, ih, Quantifier.greedily]

@[simp] theorem peak_greedily (e : Expr) : e.greedily.peak = e.peak := by
  induction e with
  | leaf | anchor => rfl
  | seq a b iha ihb | alt a b iha ihb =>
    simp only [greedily_seq, greedily_alt, peak, residual_greedily, iha, ihb]
  | capture index e ih => simp only [greedily_capture, peak, ih]
  | repetition e q ih =>
    simp only [greedily_repetition, peak, residual_greedily, ih, Quantifier.greedily]

@[simp] theorem length_code_greedily (e : Expr) : e.greedily.code.length = e.code.length := by
  induction e with
  | leaf | anchor => rfl
  | seq a b iha ihb => simp only [greedily_seq, code, List.length_append, iha, ihb]
  | alt a b iha ihb =>
    simp only [greedily_alt, code, List.length_append, length_alternativeCode, iha, ihb]
  | capture index e ih => simp only [greedily_capture, code, List.length_append, ih, Instr.encode]
  | repetition e q ih =>
    simp only [greedily_repetition, length_code_repetition, isLeaf_greedily, ih]

@[simp] theorem repeatsConsume_greedily (e : Expr) :
    e.greedily.RepeatsConsume ↔ e.RepeatsConsume := by
  induction e with
  | leaf | anchor => exact Iff.rfl
  | seq a b iha ihb | alt a b iha ihb =>
    simp only [greedily_seq, greedily_alt, RepeatsConsume, iha, ihb]
  | capture index e ih => exact ih
  | repetition e q ih => simp only [greedily_repetition, RepeatsConsume, nullable_greedily, ih]

/-- What is plain repeats nothing. -/
theorem greedily_of_isPlain {e : Expr} (h : e.isPlain = true) : e.greedily = e := by
  induction e with
  | leaf | anchor => rfl
  | seq a b iha ihb =>
    obtain ⟨ha, hb⟩ := Bool.and_eq_true_iff.1 h
    rw [greedily_seq, iha ha, ihb hb]
  | alt | repetition => cases h
  | capture index e ih => rw [greedily_capture, ih h]

/-! ### Results -/

theorem perm_inOrder (greedy greedy' : Bool) (points : List Point) :
    (inOrder greedy points).Perm (inOrder greedy' points) := by
  have hperm (greedy : Bool) : (inOrder greedy points).Perm points := by
    cases greedy with
    | true => exact List.reverse_perm points
    | false => exact .refl points
  exact (hperm greedy).trans (hperm greedy').symm

/-- To have one more iteration first or last makes no difference to what there is. -/
theorem perm_counted {f g : Point → List Point} (h : ∀ s, (f s).Perm (g s)) (min : Nat)
    (greedy greedy' : Bool) (n k : Nat) (s : Point) :
    (counted f min greedy n k s).Perm (counted g min greedy' n k s) := by
  induction n generalizing k s with
  | zero => exact .refl _
  | succ n ih =>
    have hmore : ((f s).flatMap (counted f min greedy n (k + 1))).Perm
        ((g s).flatMap (counted g min greedy' n (k + 1))) :=
      ((h s).flatMap_right _).trans (List.Perm.flatMap_left _ fun t _ => ih (k + 1) t)
    have hsides (greedy : Bool) {more stop : List Point} :
        (if greedy then more ++ stop else stop ++ more).Perm (more ++ stop) := by
      cases greedy with
      | true => exact .refl _
      | false => exact List.perm_append_comm
    rw [counted, counted]
    exact (hsides greedy).trans ((hmore.append_right _).trans (hsides greedy').symm)

theorem perm_results_greedily (input : Array UInt8) {e : Expr} (h : e.HasPlainLoops) (s : Point) :
    (e.greedily.results input s).Perm (e.results input s) := by
  induction e generalizing s with
  | leaf | anchor => exact .refl _
  | seq a b iha ihb =>
    simp only [greedily_seq, results]
    exact ((iha h.1 s).flatMap_right _).trans (List.Perm.flatMap_left _ fun t _ => ihb h.2 t)
  | alt a b iha ihb =>
    simp only [greedily_alt, results]
    exact (iha h.1 s).append (ihb h.2 s)
  | capture index e ih =>
    simp only [greedily_capture, results]
    exact (ih h s).map _
  | repetition e q ih =>
    rw [greedily_repetition, results, results]
    by_cases hmax : q.max = unboundedCount
    · rw [if_pos hmax, if_pos (show q.greedily.max = unboundedCount from hmax),
        greedily_of_isPlain (h.1 hmax)]
      exact perm_inOrder _ _ _
    · rw [if_neg hmax, if_neg (show ¬q.greedily.max = unboundedCount from hmax)]
      exact perm_counted (ih h.2) _ _ _ _ _ _

theorem isPlain_greedily (e : Expr) : e.greedily.isPlain = e.isPlain := by
  induction e with
  | leaf | anchor | alt | repetition => rfl
  | seq a b iha ihb => simp only [greedily_seq, isPlain, iha, ihb]
  | capture index e ih => exact ih

theorem hasPlainLoops_greedily (e : Expr) : e.greedily.HasPlainLoops ↔ e.HasPlainLoops := by
  induction e with
  | leaf | anchor => exact Iff.rfl
  | seq a b iha ihb | alt a b iha ihb =>
    simp only [greedily_seq, greedily_alt, HasPlainLoops, iha, ihb]
  | capture index e ih => exact ih
  | repetition e q ih =>
    simp only [greedily_repetition, HasPlainLoops, isPlain_greedily, ih, Quantifier.greedily]

/-- **Greediness changes only the order of the results**, as far as what is repeated without a bound
is plain. -/
theorem perm_results (input : Array UInt8) {e e' : Expr} (h : e'.greedily = e.greedily)
    (hplain : e.HasPlainLoops) (s : Point) : (e.results input s).Perm (e'.results input s) := by
  have hplain' : e'.HasPlainLoops := by
    rw [← hasPlainLoops_greedily, h, hasPlainLoops_greedily]
    exact hplain
  have hperm := perm_results_greedily input hplain' s
  rw [h] at hperm
  exact (perm_results_greedily input hplain s).symm.trans hperm

end Expr

/-! ### Phrases -/

namespace TokenKind

variable {t u : TokenKind}

/-- A token that is no quantifier has no greediness. -/
theorem eq_of_greedily (h : t.greedily = u.greedily) (hu : u.isQuantifier = false) : t = u := by
  cases u with
  | quantifier q => cases hu
  | _ =>
    cases t with
    | quantifier q => cases h
    | _ => exact h

theorem exists_quantifier {q : Quantifier} (h : t.greedily = (quantifier q).greedily) :
    ∃ q', t = .quantifier q' ∧ q'.greedily = q.greedily := by
  cases t with
  | quantifier q' => exact ⟨q', rfl, TokenKind.quantifier.inj h⟩
  | _ => cases h

end TokenKind

section

variable {tokens : List TokenKind}

theorem eq_singleton_of_greedily {t : TokenKind}
    (h : tokens.map TokenKind.greedily = [t].map TokenKind.greedily)
    (ht : t.isQuantifier = false) : tokens = [t] := by
  obtain ⟨u, rfl, hu⟩ := List.map_eq_singleton_iff.1 h
  rw [TokenKind.eq_of_greedily hu ht]

/-- What is between two brackets. -/
theorem exists_bracketed_of_greedily {opening closing : TokenKind} {inner : List TokenKind}
    (ho : opening.isQuantifier = false) (hc : closing.isQuantifier = false)
    (h : tokens.map TokenKind.greedily =
      (opening :: inner ++ [closing]).map TokenKind.greedily) :
    ∃ inner', tokens = opening :: inner' ++ [closing] ∧
      inner'.map TokenKind.greedily = inner.map TokenKind.greedily := by
  rw [List.map_append, List.map_cons] at h
  obtain ⟨front, back, rfl, hfront, hback⟩ := List.map_eq_append_iff.1 h
  obtain ⟨t, inner', rfl, ht, hinner⟩ := List.map_eq_cons_iff.1 hfront
  rw [eq_singleton_of_greedily hback hc, TokenKind.eq_of_greedily ht ho]
  exact ⟨inner', rfl, hinner⟩

/-- **A phrase stays one whatever the greediness of its quantifiers**, and what it stands for stays
the same but for greediness. -/
theorem Phrase.of_greedily {c : Category} {n n' d : Nat} {e : Expr}
    (h : Phrase c n tokens e n' d) {tokens' : List TokenKind}
    (ht : tokens'.map TokenKind.greedily = tokens.map TokenKind.greedily) :
    ∃ e', Phrase c n tokens' e' n' d ∧ e'.greedily = e.greedily := by
  induction h generalizing tokens' with
  | byte n b =>
    rw [eq_singleton_of_greedily ht rfl]
    exact ⟨_, .byte n b, rfl⟩
  | set n s =>
    rw [eq_singleton_of_greedily ht rfl]
    exact ⟨_, .set n s, rfl⟩
  | anyByte n =>
    rw [eq_singleton_of_greedily ht rfl]
    exact ⟨_, .anyByte n, rfl⟩
  | inputStart n =>
    rw [eq_singleton_of_greedily ht rfl]
    exact ⟨_, .inputStart n, rfl⟩
  | inputEnd n =>
    rw [eq_singleton_of_greedily ht rfl]
    exact ⟨_, .inputEnd n, rfl⟩
  | group _ ih =>
    obtain ⟨inner, rfl, hinner⟩ := exists_bracketed_of_greedily rfl rfl ht
    obtain ⟨e', h', he⟩ := ih hinner
    exact ⟨e', .group h', he⟩
  | capture _ ih =>
    obtain ⟨inner, rfl, hinner⟩ := exists_bracketed_of_greedily rfl rfl ht
    obtain ⟨e', h', he⟩ := ih hinner
    exact ⟨_, .capture h', congrArg (Expr.capture _) he⟩
  | single _ ih =>
    obtain ⟨e', h', he⟩ := ih ht
    exact ⟨e', .single h', he⟩
  | quantified q _ ih =>
    rw [List.map_append] at ht
    obtain ⟨inner, last, rfl, hinner, hlast⟩ := List.map_eq_append_iff.1 ht
    obtain ⟨t, rfl, ht'⟩ := List.map_eq_singleton_iff.1 hlast
    obtain ⟨q', rfl, hq⟩ := TokenKind.exists_quantifier ht'
    obtain ⟨e', h', he⟩ := ih hinner
    exact ⟨_, .quantified q' h', congrArg₂ Expr.repetition he hq⟩
  | one _ ih =>
    obtain ⟨e', h', he⟩ := ih ht
    exact ⟨e', .one h', he⟩
  | more _ _ ih ih' =>
    rw [List.map_append] at ht
    obtain ⟨front, back, rfl, hfront, hback⟩ := List.map_eq_append_iff.1 ht
    obtain ⟨e', h', he⟩ := ih hfront
    obtain ⟨f', h'', hf⟩ := ih' hback
    exact ⟨_, .more h' h'', congrArg₂ Expr.seq he hf⟩
  | last _ ih =>
    obtain ⟨e', h', he⟩ := ih ht
    exact ⟨e', .last h', he⟩
  | either _ _ ih ih' =>
    rw [List.map_append, List.map_cons] at ht
    obtain ⟨front, back, rfl, hfront, hback⟩ := List.map_eq_append_iff.1 ht
    obtain ⟨t, rest, rfl, hbar, hrest⟩ := List.map_eq_cons_iff.1 hback
    obtain rfl := TokenKind.eq_of_greedily (u := .alternation) hbar rfl
    obtain ⟨e', h', he⟩ := ih hfront
    obtain ⟨f', h'', hf⟩ := ih' hrest
    exact ⟨_, .either h' h'', congrArg₂ Expr.alt he hf⟩

end

end BoundedRegex
