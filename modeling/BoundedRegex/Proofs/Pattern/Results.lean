import BoundedRegex.Proofs.Pattern.Expr

/-!
# Results of expressions

What holds of all the results of an expression:

* they lie at or behind the point from which they start, within the input, and only add spans to
  its log (`Expr.advance_of_mem_results`);
* they lie behind it, if the expression is not nullable (`Expr.lt_of_mem_results`), and if it is,
  one of them lies there on the empty input (`Expr.exists_mem_results_of_nullable`);
* there is one at most, if the expression leaves no frames (`Expr.length_results_le_one`).

A repetition of a body with one result at most is a chain of iterations, whether it has a bound or
not (`counted_eq_inOrder`).
-/

namespace BoundedRegex

/-- One point is reached from another: it is no earlier and within the input, and its log extends
the other's. -/
structure Point.Advance (input : Array UInt8) (s t : Point) : Prop where
  pos_le : s.pos ≤ t.pos
  pos_le_size : s.pos ≤ input.size → t.pos ≤ input.size
  log : s.log <+: t.log

namespace Point.Advance

variable {input : Array UInt8} {s t u : Point}

theorem refl (s : Point) : s.Advance input s :=
  ⟨Nat.le_refl _, id, List.prefix_rfl⟩

theorem trans (h : s.Advance input t) (h' : t.Advance input u) : s.Advance input u :=
  ⟨Nat.le_trans h.pos_le h'.pos_le, fun hs => h'.pos_le_size (h.pos_le_size hs),
    h.log.trans h'.log⟩

end Point.Advance

/-! ### Repetitions -/

section

variable {f : Point → List Point} {min : Nat} {greedy : Bool}

theorem mem_counted_succ {n k : Nat} {s t : Point} :
    t ∈ counted f min greedy (n + 1) k s ↔
      (∃ u ∈ f s, t ∈ counted f min greedy n (k + 1) u) ∨ (min ≤ k ∧ t = s) := by
  simp only [counted]
  by_cases hk : min ≤ k <;> cases greedy <;> simp [hk, or_comm]

theorem mem_counted_zero {k : Nat} {s t : Point} :
    t ∈ counted f min greedy 0 k s ↔ min ≤ k ∧ t = s := by
  simp only [counted]
  by_cases hk : min ≤ k <;> simp [hk]

theorem mem_inOrder {points : List Point} {t : Point} : t ∈ inOrder greedy points ↔ t ∈ points := by
  cases greedy <;> simp [inOrder]

theorem iterates_of_none {n : Nat} {s : Point} (h : (f s).head? = none) : iterates f n s = [s] := by
  cases n with
  | zero => rfl
  | succ n => rw [iterates, h]

theorem iterates_of_some {n : Nat} {s t : Point} (h : (f s).head? = some t) :
    iterates f (n + 1) s = s :: iterates f n t := by
  rw [iterates, h]

theorem iterates_eq_cons (n : Nat) (s : Point) :
    iterates f n s = s :: (iterates f n s).tail := by
  cases n <;> rfl

/-- What holds of each result of a body holds of each result of its repetition. -/
theorem rel_of_mem_counted {R : Point → Point → Prop} (hrefl : ∀ s, R s s)
    (htrans : ∀ s t u, R s t → R t u → R s u) (hf : ∀ s, ∀ t ∈ f s, R s t) {n k : Nat}
    {s t : Point} (h : t ∈ counted f min greedy n k s) : R s t := by
  induction n generalizing k s with
  | zero => rw [(mem_counted_zero.1 h).2]; exact hrefl s
  | succ n ih =>
    rcases mem_counted_succ.1 h with ⟨u, hu, ht⟩ | ⟨-, rfl⟩
    · exact htrans _ _ _ (hf s u hu) (ih ht)
    · exact hrefl _

theorem rel_of_mem_iterates {R : Point → Point → Prop} (hrefl : ∀ s, R s s)
    (htrans : ∀ s t u, R s t → R t u → R s u) (hf : ∀ s, ∀ t ∈ f s, R s t) {n : Nat}
    {s t : Point} (h : t ∈ iterates f n s) : R s t := by
  induction n generalizing s with
  | zero => rw [List.mem_singleton.1 h]; exact hrefl s
  | succ n ih =>
    rcases List.mem_cons.1 h with rfl | ht
    · exact hrefl _
    · cases hu : (f s).head? with
      | none => rw [hu] at ht; cases ht
      | some u =>
        rw [hu] at ht
        exact htrans _ _ _ (hf s u (List.mem_of_mem_head? hu)) (ih ht)

/-- The results of a repetition that has to iterate once more lie behind where it starts. -/
theorem lt_of_mem_counted (hf : ∀ s, ∀ t ∈ f s, s.pos < t.pos) {n k : Nat} {s t : Point}
    (hk : k < min) (h : t ∈ counted f min greedy n k s) : s.pos < t.pos := by
  cases n with
  | zero => have := (mem_counted_zero.1 h).1; omega
  | succ n =>
    rcases mem_counted_succ.1 h with ⟨u, hu, ht⟩ | ⟨hle, -⟩
    · have hle : u.pos ≤ t.pos :=
        rel_of_mem_counted (R := fun s t => s.pos ≤ t.pos) (fun _ => Nat.le_refl _)
          (fun _ _ _ => Nat.le_trans) (fun s t ht => Nat.le_of_lt (hf s t ht)) ht
      exact Nat.lt_of_lt_of_le (hf s u hu) hle
    · omega

theorem lt_of_mem_drop_iterates (hf : ∀ s, ∀ t ∈ f s, s.pos < t.pos) {n : Nat} {s t : Point}
    (hmin : 0 < min) (h : t ∈ (iterates f n s).drop min) : s.pos < t.pos := by
  obtain ⟨m, rfl⟩ : ∃ m, min = m + 1 := ⟨min - 1, by omega⟩
  cases n with
  | zero => simp [iterates] at h
  | succ n =>
    rw [iterates, List.drop_succ_cons] at h
    cases hu : (f s).head? with
    | none => rw [hu] at h; simp at h
    | some u =>
      rw [hu] at h
      have hle : u.pos ≤ t.pos :=
        rel_of_mem_iterates (R := fun s t => s.pos ≤ t.pos) (fun _ => Nat.le_refl _)
          (fun _ _ _ => Nat.le_trans) (fun s t ht => Nat.le_of_lt (hf s t ht))
          (List.mem_of_mem_drop h)
      exact Nat.lt_of_lt_of_le (hf s u (List.mem_of_mem_head? hu)) hle

/-- A bounded repetition of a body with one result at most is a chain of iterations. -/
theorem counted_eq_inOrder (hf : ∀ s, (f s).length ≤ 1) (n k : Nat) (s : Point) :
    counted f min greedy n k s = inOrder greedy ((iterates f n s).drop (min - k)) := by
  have hstop (k : Nat) (s : Point) :
      (if min ≤ k then [s] else []) = [s].drop (min - k) := by
    by_cases hk : min ≤ k
    · rw [if_pos hk, Nat.sub_eq_zero_of_le hk, List.drop_zero]
    · rw [if_neg hk, List.drop_of_length_le (by simp; omega)]
  induction n generalizing k s with
  | zero =>
    have hone : ([s].drop (min - k)).reverse = [s].drop (min - k) := by
      rcases Nat.eq_zero_or_pos (min - k) with h | h
      · rw [h]; rfl
      · rw [List.drop_of_length_le (by simp; omega)]; rfl
    rw [counted, hstop, iterates, inOrder]
    cases greedy
    · rfl
    · exact hone.symm
  | succ n ih =>
    -- The results with another iteration are those of the tail of the chain.
    obtain ⟨tail, htail, hmore⟩ : ∃ tail, iterates f (n + 1) s = s :: tail ∧
        (f s).flatMap (counted f min greedy n (k + 1)) =
          inOrder greedy (tail.drop (min - (k + 1))) := by
      rw [iterates]
      cases hfs : f s with
      | nil => exact ⟨[], rfl, by cases greedy <;> simp [inOrder]⟩
      | cons t rest =>
        have hrest : rest = [] := by
          have := hf s
          rw [hfs, List.length_cons] at this
          exact List.eq_nil_of_length_eq_zero (by omega)
        subst hrest
        exact ⟨iterates f n t, rfl, by rw [List.flatMap_singleton, ih]⟩
    rw [counted, hmore, hstop, htail]
    by_cases hk : min ≤ k
    · have h₁ : min - k = 0 := Nat.sub_eq_zero_of_le hk
      have h₂ : min - (k + 1) = 0 := Nat.sub_eq_zero_of_le (Nat.le_succ_of_le hk)
      rw [h₁, h₂]
      cases greedy <;> simp [inOrder]
    · obtain ⟨m, hm⟩ : ∃ m, min - k = m + 1 := ⟨min - k - 1, by omega⟩
      rw [hm, show min - (k + 1) = m by omega, List.drop_succ_cons, List.drop_succ_cons,
        List.drop_nil]
      cases greedy <;> simp [inOrder]

end

/-! ### Expressions -/

namespace Expr

variable {input : Array UInt8}

theorem advance_of_mem_results (e : Expr) {s t : Point} (h : t ∈ e.results input s) :
    s.Advance input t := by
  induction e generalizing s t with
  | leaf l =>
    rw [results] at h
    cases hb : input[s.pos]? with
    | none => rw [hb] at h; cases h
    | some b =>
      rw [hb] at h
      have hlt : s.pos < input.size := (Array.getElem?_eq_some_iff.1 hb).1
      by_cases ha : l.accepts b = true
      · simp only [if_pos ha, List.mem_singleton] at h
        subst h
        exact ⟨Nat.le_succ _, fun _ => hlt, List.prefix_rfl⟩
      · simp only [if_neg ha, List.not_mem_nil] at h
  | anchor a =>
    rw [results] at h
    split at h
    · rw [List.mem_singleton.1 h]; exact .refl s
    · cases h
  | seq a b iha ihb =>
    obtain ⟨u, hu, ht⟩ := List.mem_flatMap.1 h
    exact (iha hu).trans (ihb ht)
  | alt a b iha ihb =>
    rcases List.mem_append.1 h with h | h
    · exact iha h
    · exact ihb h
  | capture index e ih =>
    obtain ⟨u, hu, rfl⟩ := List.mem_map.1 h
    have hadv := ih hu
    exact ⟨hadv.pos_le, hadv.pos_le_size, hadv.log.trans (List.prefix_append ..)⟩
  | repetition e q ih =>
    rw [results] at h
    split at h
    · exact rel_of_mem_iterates Point.Advance.refl (fun _ _ _ => Point.Advance.trans)
        (fun _ _ => ih) (List.mem_of_mem_drop (mem_inOrder.1 h))
    · exact rel_of_mem_counted Point.Advance.refl (fun _ _ _ => Point.Advance.trans)
        (fun _ _ => ih) h

/-- What is not nullable consumes. -/
theorem lt_of_mem_results (e : Expr) (hwf : e.WellFormed) (hnull : e.nullable = false)
    {s t : Point} (h : t ∈ e.results input s) : s.pos < t.pos := by
  induction e generalizing s t with
  | leaf l =>
    rw [results] at h
    split at h
    · split at h
      · rw [List.mem_singleton.1 h]; exact Nat.lt_succ_self _
      · cases h
    · cases h
  | anchor => cases hnull
  | seq a b iha ihb =>
    obtain ⟨u, hu, ht⟩ := List.mem_flatMap.1 h
    rcases Bool.and_eq_false_iff.1 hnull with ha | hb
    · exact Nat.lt_of_lt_of_le (iha hwf.1 ha hu) (b.advance_of_mem_results ht).pos_le
    · exact Nat.lt_of_le_of_lt (a.advance_of_mem_results hu).pos_le (ihb hwf.2 hb ht)
  | alt a b iha ihb =>
    obtain ⟨ha, hb⟩ := Bool.or_eq_false_iff.1 hnull
    rcases List.mem_append.1 h with h | h
    · exact iha hwf.1 ha h
    · exact ihb hwf.2 hb h
  | capture index e ih =>
    obtain ⟨u, hu, rfl⟩ := List.mem_map.1 h
    exact ih (t := u) hwf.2 hnull hu
  | repetition e q ih =>
    obtain ⟨he, -, -, hwe⟩ := hwf
    have hmin : 0 < q.min.toNat := by
      have hne : q.min ≠ 0 := of_decide_eq_false hnull
      exact Nat.pos_of_ne_zero fun h0 => hne (UInt8.toNat_inj.1 h0)
    rw [results] at h
    split at h
    · exact lt_of_mem_drop_iterates (fun _ _ => ih hwe he) hmin (mem_inOrder.1 h)
    · exact lt_of_mem_counted (fun _ _ => ih hwe he) hmin h

/-- What is nullable ends where it starts, at the start of an empty input. -/
theorem exists_mem_results_of_nullable (e : Expr) (hnull : e.nullable = true)
    (hsize : input.size = 0) (log : List Capture) : ∃ t ∈ e.results input ⟨0, log⟩, t.pos = 0 := by
  induction e generalizing log with
  | leaf => cases hnull
  | anchor a =>
    have hholds : a.holds input 0 = true := by
      cases a with
      | start => rfl
      | stop => exact decide_eq_true hsize.symm
    exact ⟨⟨0, log⟩, by rw [results, if_pos hholds]; exact List.mem_singleton_self _, rfl⟩
  | seq a b iha ihb =>
    obtain ⟨ha, hb⟩ := Bool.and_eq_true_iff.1 hnull
    obtain ⟨⟨pos, log'⟩, hs, hpos⟩ := iha ha log
    obtain rfl : pos = 0 := hpos
    obtain ⟨t, ht, htpos⟩ := ihb hb log'
    exact ⟨t, List.mem_flatMap.2 ⟨_, hs, ht⟩, htpos⟩
  | alt a b iha ihb =>
    rcases Bool.or_eq_true_iff.1 hnull with ha | hb
    · obtain ⟨t, ht, hpos⟩ := iha ha log
      exact ⟨t, List.mem_append_left _ ht, hpos⟩
    · obtain ⟨t, ht, hpos⟩ := ihb hb log
      exact ⟨t, List.mem_append_right _ ht, hpos⟩
  | capture index e ih =>
    obtain ⟨t, ht, hpos⟩ := ih hnull log
    exact ⟨_, List.mem_map_of_mem ht, hpos⟩
  | repetition e q =>
    have hmin : q.min.toNat = 0 := by
      have hzero : q.min = 0 := of_decide_eq_true hnull
      rw [hzero]
      rfl
    refine ⟨⟨0, log⟩, ?_, rfl⟩
    rw [results, hmin]
    split
    · rw [List.drop_zero, mem_inOrder, iterates_eq_cons]
      exact List.mem_cons_self
    · cases q.max.toNat with
      | zero => exact mem_counted_zero.2 ⟨Nat.le_refl _, rfl⟩
      | succ n => exact mem_counted_succ.2 (Or.inr ⟨Nat.le_refl _, rfl⟩)

/-- What leaves no frames has one result at most. -/
theorem length_results_le_one (e : Expr) (hwf : e.WellFormed) (hres : e.residual = 0) (s : Point) :
    (e.results input s).length ≤ 1 := by
  induction e generalizing s with
  | leaf l =>
    rw [results]
    split
    · split <;> simp
    · simp
  | anchor a => rw [results]; split <;> simp
  | seq a b iha ihb =>
    obtain ⟨ha, hb⟩ : a.residual = 0 ∧ b.residual = 0 := by simp only [residual] at hres; omega
    have hone := iha hwf.1 ha s
    rw [results]
    cases hr : a.results input s with
    | nil => simp
    | cons t rest =>
      rw [hr, List.length_cons] at hone
      rw [List.eq_nil_of_length_eq_zero (show rest.length = 0 by omega), List.flatMap_singleton]
      exact ihb hwf.2 hb t
  | alt a b =>
    have : a.residual + 1 ≤ (alt a b).residual := Nat.le_max_left ..
    omega
  | capture index e ih =>
    have he : e.residual = 0 := by simp only [residual] at hres; split at hres <;> omega
    rw [results, List.length_map]
    exact ih hwf.2 he s
  | repetition e q =>
    obtain ⟨-, hmax, -, -⟩ := hwf
    simp only [residual] at hres
    split at hres
    · have hpos : 0 < (e.residual + 1) * q.max.toNat := Nat.mul_pos (Nat.succ_pos _) hmax
      omega
    · omega

end Expr

end BoundedRegex
