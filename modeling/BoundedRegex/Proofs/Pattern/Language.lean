import BoundedRegex.Proofs.Pattern.Results

/-!
# The language of an expression

`Expr.Spans input e i j` is the usual meaning of an expression, as a relation between offsets of an
input, with nothing said of an order or of captures: a sequence composes the relations of its parts,
an alternation joins them, and a repetition is the union of the powers of its body from the least
to the greatest number of iterations.

* All the results of an expression are in its language (`Expr.spans_of_mem_results`).
* If no repetition without a bound has an alternation or a repetition in its body, the results have
  all the ends that the language has (`Expr.exists_mem_results`).  Such a body has one result at
  most, so nothing is lost when the first one is taken for good.
-/

namespace BoundedRegex

/-! ### The relation -/

/-- The powers of a relation: as many steps as given, one after another. -/
def power (R : Nat → Nat → Prop) : Nat → Nat → Nat → Prop
  | 0, i, j => j = i
  | n + 1, i, j => ∃ k, R i k ∧ power R n k j

/-- Whether a number of iterations is within the bounds. -/
def Quantifier.Allows (q : Quantifier) (n : Nat) : Prop :=
  q.min.toNat ≤ n ∧ (q.max = unboundedCount ∨ n ≤ q.max.toNat)

namespace Expr

/-- An expression matches an input from one offset to another. -/
def Spans (input : Array UInt8) : Expr → Nat → Nat → Prop
  | leaf l, i, j => (∃ b, input[i]? = some b ∧ l.accepts b = true) ∧ j = i + 1
  | anchor a, i, j => a.holds input i = true ∧ j = i
  | seq a b, i, j => ∃ k, a.Spans input i k ∧ b.Spans input k j
  | alt a b, i, j => a.Spans input i j ∨ b.Spans input i j
  | capture _ e, i, j => e.Spans input i j
  | repetition e q, i, j => i ≤ input.size ∧ ∃ n, q.Allows n ∧ power (e.Spans input) n i j

/-- Whether an expression has no alternation and no repetition in it. -/
def isPlain : Expr → Bool
  | leaf _ | anchor _ => true
  | seq a b => a.isPlain && b.isPlain
  | alt _ _ | repetition _ _ => false
  | capture _ e => e.isPlain

/-- What is repeated without a bound is plain. -/
def HasPlainLoops : Expr → Prop
  | leaf _ | anchor _ => True
  | seq a b | alt a b => a.HasPlainLoops ∧ b.HasPlainLoops
  | capture _ e => e.HasPlainLoops
  | repetition e q => (q.max = unboundedCount → e.isPlain = true) ∧ e.HasPlainLoops

end Expr

/-! ### Repetitions -/

section

variable {f : Point → List Point} {R : Nat → Nat → Prop} {min : Nat} {greedy : Bool}

/-- A body that takes its first result for good has no results that trying everything has not. -/
theorem mem_counted_of_mem_drop_iterates {n k : Nat} {s t : Point}
    (h : t ∈ (iterates f n s).drop (min - k)) : t ∈ counted f min greedy n k s := by
  induction n generalizing k s with
  | zero =>
    by_cases hk : min ≤ k
    · exact mem_counted_zero.2 ⟨hk, List.mem_singleton.1 (List.mem_of_mem_drop h)⟩
    · rw [iterates, List.drop_of_length_le (by simp; omega)] at h
      cases h
  | succ n ih =>
    rw [iterates_eq_cons] at h
    by_cases hk : min ≤ k ∧ t = s
    · exact mem_counted_succ.2 (Or.inr hk)
    · have htail : t ∈ (iterates f (n + 1) s).tail.drop (min - (k + 1)) := by
        rcases Nat.lt_or_ge k min with hlt | hge
        · rwa [show min - k = min - (k + 1) + 1 by omega, List.drop_succ_cons] at h
        · rw [show min - k = 0 by omega, List.drop_zero] at h
          rw [show min - (k + 1) = 0 by omega, List.drop_zero]
          exact (List.mem_cons.1 h).resolve_left fun heq => hk ⟨hge, heq⟩
      cases hu : (f s).head? with
      | none => rw [iterates_of_none hu] at htail; simp at htail
      | some u =>
        rw [iterates_of_some hu, List.tail_cons] at htail
        exact mem_counted_succ.2 (Or.inl ⟨u, List.mem_of_mem_head? hu, ih htail⟩)

/-- What a repetition comes to is reached by a power of what its body does. -/
theorem exists_power_of_mem_counted {size : Nat}
    (hf : ∀ s, s.pos ≤ size → ∀ t ∈ f s, t.pos ≤ size ∧ R s.pos t.pos) {n k : Nat} {s t : Point}
    (hs : s.pos ≤ size) (h : t ∈ counted f min greedy n k s) :
    ∃ m ≤ n, min ≤ k + m ∧ power R m s.pos t.pos := by
  induction n generalizing k s with
  | zero =>
    obtain ⟨hk, rfl⟩ := mem_counted_zero.1 h
    exact ⟨0, Nat.le_refl 0, hk, rfl⟩
  | succ n ih =>
    rcases mem_counted_succ.1 h with ⟨u, hu, ht⟩ | ⟨hk, rfl⟩
    · obtain ⟨hle, hR⟩ := hf s hs u hu
      obtain ⟨m, hm, hk, hpower⟩ := ih hle ht
      exact ⟨m + 1, by omega, by omega, u.pos, hR, hpower⟩
    · exact ⟨0, Nat.zero_le _, hk, rfl⟩

/-- What a power of the body reaches, a repetition of as many iterations comes to. -/
theorem exists_mem_counted_of_power
    (hf : ∀ s j, R s.pos j → ∃ t ∈ f s, t.pos = j) {m n k : Nat} {s : Point} {j : Nat}
    (h : power R m s.pos j) (hm : m ≤ n) (hk : min ≤ k + m) :
    ∃ t ∈ counted f min greedy n k s, t.pos = j := by
  induction m generalizing n k s with
  | zero =>
    refine ⟨s, ?_, Eq.symm h⟩
    cases n with
    | zero => exact mem_counted_zero.2 ⟨hk, rfl⟩
    | succ n => exact mem_counted_succ.2 (Or.inr ⟨hk, rfl⟩)
  | succ m ih =>
    obtain ⟨n, rfl⟩ : ∃ n', n = n' + 1 := ⟨n - 1, by omega⟩
    obtain ⟨_, hR, hrest⟩ := h
    obtain ⟨u, hu, rfl⟩ := hf s _ hR
    obtain ⟨t, ht, hj⟩ := ih (n := n) (k := k + 1) hrest (by omega) (by omega)
    exact ⟨t, mem_counted_succ.2 (Or.inl ⟨u, hu, ht⟩), hj⟩

/-- Steps that go forward go as far as there are steps. -/
theorem add_le_of_power (hR : ∀ i j, R i j → i < j) {m i j : Nat} (h : power R m i j) :
    i + m ≤ j := by
  induction m generalizing i with
  | zero => exact Nat.le_of_eq (Eq.symm h)
  | succ m ih =>
    obtain ⟨k, hk, hrest⟩ := h
    have hlt := hR i k hk
    have hle := ih hrest
    omega

/-- Steps within an interval stay in it. -/
theorem power_within {size : Nat} (hR : ∀ i j, R i j → i ≤ j ∧ j ≤ size) {m i j : Nat}
    (hi : i ≤ size) (h : power R m i j) : i ≤ j ∧ j ≤ size := by
  induction m generalizing i with
  | zero => obtain rfl : j = i := h; exact ⟨Nat.le_refl _, hi⟩
  | succ m ih =>
    obtain ⟨k, hk, hrest⟩ := h
    have hik := hR i k hk
    have hkj := ih hik.2 hrest
    omega

end

namespace Expr

variable {input : Array UInt8}

/-- A span lies in the input, and its end is not before its start. -/
theorem Spans.within {e : Expr} {i j : Nat} (h : e.Spans input i j) : i ≤ j ∧ j ≤ input.size := by
  induction e generalizing i j with
  | leaf l =>
    obtain ⟨⟨b, hb, -⟩, rfl⟩ := h
    exact ⟨Nat.le_succ i, (Array.getElem?_eq_some_iff.1 hb).1⟩
  | anchor a =>
    obtain ⟨ha, rfl⟩ := h
    cases a with
    | start => simp [of_decide_eq_true ha]
    | stop => simp [of_decide_eq_true ha]
  | seq a b iha ihb =>
    obtain ⟨k, ha, hb⟩ := h
    exact ⟨Nat.le_trans (iha ha).1 (ihb hb).1, (ihb hb).2⟩
  | alt a b iha ihb =>
    rcases h with h | h
    · exact iha h
    · exact ihb h
  | capture index e ih => exact ih h
  | repetition e q ih =>
    obtain ⟨hi, n, -, hpower⟩ := h
    exact power_within (fun _ _ => ih) hi hpower

/-- What is plain leaves no frames. -/
theorem residual_of_isPlain {e : Expr} (h : e.isPlain = true) : e.residual = 0 := by
  induction e with
  | leaf | anchor => rfl
  | seq a b iha ihb =>
    obtain ⟨ha, hb⟩ := Bool.and_eq_true_iff.1 h
    rw [residual, iha ha, ihb hb]
  | alt | repetition => cases h
  | capture index e ih => rw [residual, ih h, if_neg (Nat.lt_irrefl 0)]

/-- **Results are in the language.** -/
theorem spans_of_mem_results (e : Expr) {s t : Point} (hs : s.pos ≤ input.size)
    (h : t ∈ e.results input s) : e.Spans input s.pos t.pos := by
  induction e generalizing s t with
  | leaf l =>
    rw [results] at h
    cases hb : input[s.pos]? with
    | none => rw [hb] at h; cases h
    | some b =>
      simp only [hb, List.mem_ite_nil_right, List.mem_singleton] at h
      obtain ⟨ha, rfl⟩ := h
      exact ⟨⟨b, hb, ha⟩, rfl⟩
  | anchor a =>
    rw [results, List.mem_ite_nil_right, List.mem_singleton] at h
    obtain ⟨ha, rfl⟩ := h
    exact ⟨ha, rfl⟩
  | seq a b iha ihb =>
    obtain ⟨u, hu, ht⟩ := List.mem_flatMap.1 h
    exact ⟨u.pos, iha hs hu, ihb ((a.advance_of_mem_results hu).pos_le_size hs) ht⟩
  | alt a b iha ihb =>
    rcases List.mem_append.1 h with h | h
    · exact Or.inl (iha hs h)
    · exact Or.inr (ihb hs h)
  | capture index e ih =>
    obtain ⟨u, hu, rfl⟩ := List.mem_map.1 h
    exact ih (t := u) hs hu
  | repetition e q ih =>
    have hbody : ∀ s, s.pos ≤ input.size → ∀ t ∈ e.results input s,
        t.pos ≤ input.size ∧ e.Spans input s.pos t.pos :=
      fun s hs t ht => ⟨(e.advance_of_mem_results ht).pos_le_size hs, ih hs ht⟩
    rw [results] at h
    split at h
    · next hmax =>
      -- Only the first result of each iteration is taken; it is one of those that could be.
      have hmem : t ∈ counted (e.results input) q.min.toNat q.greedy input.size 0 s :=
        mem_counted_of_mem_drop_iterates (mem_inOrder.1 h)
      obtain ⟨m, -, hmin, hpower⟩ := exists_power_of_mem_counted hbody hs hmem
      exact ⟨hs, m, ⟨by omega, Or.inl hmax⟩, hpower⟩
    · obtain ⟨m, hm, hmin, hpower⟩ := exists_power_of_mem_counted hbody hs h
      exact ⟨hs, m, ⟨by omega, Or.inr hm⟩, hpower⟩

/-- **The language has no other ends**, as far as what is repeated without a bound is plain. -/
theorem exists_mem_results (e : Expr) (hwf : e.WellFormed) (hplain : e.HasPlainLoops) {s : Point}
    {j : Nat} (h : e.Spans input s.pos j) : ∃ t ∈ e.results input s, t.pos = j := by
  induction e generalizing s j with
  | leaf l =>
    obtain ⟨⟨b, hb, ha⟩, rfl⟩ := h
    exact ⟨⟨s.pos + 1, s.log⟩, by simp [results, hb, ha], rfl⟩
  | anchor a =>
    obtain ⟨ha, rfl⟩ := h
    exact ⟨s, by simp [results, ha], rfl⟩
  | seq a b iha ihb =>
    obtain ⟨_, ha, hb⟩ := h
    obtain ⟨u, hu, rfl⟩ := iha hwf.1 hplain.1 ha
    obtain ⟨t, ht, hj⟩ := ihb hwf.2 hplain.2 hb
    exact ⟨t, List.mem_flatMap.2 ⟨u, hu, ht⟩, hj⟩
  | alt a b iha ihb =>
    rcases h with h | h
    · obtain ⟨t, ht, hj⟩ := iha hwf.1 hplain.1 h
      exact ⟨t, List.mem_append_left _ ht, hj⟩
    · obtain ⟨t, ht, hj⟩ := ihb hwf.2 hplain.2 h
      exact ⟨t, List.mem_append_right _ ht, hj⟩
  | capture index e ih =>
    obtain ⟨t, ht, hj⟩ := ih hwf.2 hplain h
    exact ⟨_, List.mem_map.2 ⟨t, ht, rfl⟩, hj⟩
  | repetition e q ih =>
    obtain ⟨hnull, -, -, hwe⟩ := hwf
    obtain ⟨hbody, hloops⟩ := hplain
    obtain ⟨hs, m, ⟨hmin, hmax⟩, hpower⟩ := h
    have hresults (s : Point) (j : Nat) (h : e.Spans input s.pos j) :
        ∃ t ∈ e.results input s, t.pos = j := ih hwe hloops h
    rw [results]
    split
    · next hunbounded =>
      -- Each iteration consumes, so there are no more of them than the input has bytes.
      have hlt (i j : Nat) (h : e.Spans input i j) : i < j := by
        obtain ⟨t, ht, rfl⟩ := hresults ⟨i, []⟩ j h
        exact e.lt_of_mem_results hwe hnull ht
      have hsize : m ≤ input.size := by
        have hle := add_le_of_power hlt hpower
        have hend := power_within (fun _ _ => Spans.within) hs hpower
        omega
      -- The first result of an iteration is the only one, so taking it for good loses nothing.
      have hone (s : Point) : (e.results input s).length ≤ 1 :=
        e.length_results_le_one hwe (residual_of_isPlain (hbody hunbounded)) s
      have hmem : ∃ t ∈ counted (e.results input) q.min.toNat q.greedy input.size 0 s, t.pos = j :=
        exists_mem_counted_of_power hresults hpower hsize (by omega)
      rwa [counted_eq_inOrder hone] at hmem
    · next hbounded =>
      exact exists_mem_counted_of_power hresults hpower (hmax.resolve_left hbounded) (by omega)

end Expr

end BoundedRegex
