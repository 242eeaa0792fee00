import Mathlib.Data.List.Nodup
import BoundedRegex.Proofs.Pattern.Language

/-!
# What captures log

A capture logs its span when it closes, so that what is inside it comes before it in the log.
`Logged input groups i j log` says what a log of the captures of some groups has in it, between two
offsets of an input:

* the spans lie between the offsets, and each is a span of the body of its group;
* their ends do not go back, and any two of them are nested or apart;
* behind each capture that is inside a group there is one of the group around it.

All the results of an expression whose captures have different indices only add such a log
(`Expr.logged_of_mem_results`).
-/

namespace BoundedRegex

/-- The captures inside an expression, in the order in which they open: their indices and their
bodies. -/
def Expr.groups : Expr → List (UInt8 × Expr)
  | leaf _ | anchor _ => []
  | seq a b | alt a b => a.groups ++ b.groups
  | capture index e => (index, e) :: e.groups
  | repetition e _ => e.groups

theorem Expr.map_fst_groups (e : Expr) : e.groups.map Prod.fst = e.indices := by
  induction e with
  | leaf | anchor => rfl
  | seq a b iha ihb | alt a b iha ihb => rw [groups, indices, List.map_append, iha, ihb]
  | capture index e ih => rw [groups, indices, List.map_cons, ih]
  | repetition e q ih => exact ih

/-- What is inside a group is inside the expression around it. -/
theorem Expr.indices_subset_of_mem_groups {e body : Expr} {index : UInt8}
    (h : (index, body) ∈ e.groups) : body.indices ⊆ e.indices := by
  induction e with
  | leaf | anchor => cases h
  | seq a b iha ihb | alt a b iha ihb =>
    rcases List.mem_append.1 h with h | h
    · exact fun i hi => List.mem_append_left _ (iha h hi)
    · exact fun i hi => List.mem_append_right _ (ihb h hi)
  | capture _ e ih =>
    rcases List.mem_cons.1 h with h | h
    · cases h
      exact List.subset_cons_self _ _
    · exact fun i hi => List.mem_cons_of_mem _ (ih h hi)
  | repetition e q ih => exact ih h

/-- A log of the captures of some groups, between two offsets of an input. -/
structure Logged (input : Array UInt8) (groups : List (UInt8 × Expr)) (i j : Nat)
    (log : List Capture) : Prop where
  /-- Each capture lies between the offsets, and its group matches there. -/
  spans : ∀ c ∈ log, i ≤ c.start ∧ c.start ≤ c.stop ∧ c.stop ≤ j ∧
    ∃ body, (c.index, body) ∈ groups ∧ body.Spans input c.start c.stop
  /-- A later capture ends no earlier, and starts behind an earlier one or holds it. -/
  ordered : log.Pairwise fun c d => c.stop ≤ d.stop ∧ (c.stop ≤ d.start ∨ d.start ≤ c.start)
  /-- A capture that is inside a group is followed by one of the group that holds it. -/
  enclosed : ∀ index body, (index, body) ∈ groups → ∀ before c behind,
    log = before ++ c :: behind → c.index ∈ body.indices →
      ∃ d ∈ behind, d.index = index ∧ d.start ≤ c.start ∧ c.stop ≤ d.stop

/-- Where an element of two lists stands: in the first, or in the second. -/
theorem append_eq_append_cons {α : Type} {xs ys before behind : List α} {x : α}
    (h : xs ++ ys = before ++ x :: behind) :
    (∃ rest, xs = before ++ x :: rest ∧ behind = rest ++ ys) ∨
      ∃ rest, ys = rest ++ x :: behind := by
  rcases List.append_eq_append_iff.1 h with ⟨rest, -, hrest⟩ | ⟨rest, rfl, hrest⟩
  · exact Or.inr ⟨rest, hrest⟩
  · cases rest with
    | nil => exact Or.inr ⟨[], hrest.symm⟩
    | cons y rest =>
      obtain ⟨rfl, rfl⟩ := List.cons.inj hrest
      exact Or.inl ⟨rest, rfl, rfl⟩

namespace Logged

variable {input : Array UInt8} {groups groups' : List (UInt8 × Expr)} {i j k : Nat}
  {log log' : List Capture}

theorem nil (input : Array UInt8) (groups : List (UInt8 × Expr)) (i j : Nat) :
    Logged input groups i j [] where
  spans := nofun
  ordered := .nil
  enclosed _ _ _ before _ _ h := by cases before <;> cases h

/-- The index of a logged capture is that of a group. -/
theorem index_mem (h : Logged input groups i j log) {c : Capture} (hc : c ∈ log) :
    c.index ∈ groups.map Prod.fst := by
  obtain ⟨-, -, -, body, hbody, -⟩ := h.spans c hc
  exact List.mem_map_of_mem hbody

/-- More groups change nothing, if they are around none of the captures. -/
theorem mono (h : Logged input groups i j log) (hsub : groups ⊆ groups')
    (hnew : ∀ g ∈ groups', g ∈ groups ∨ ∀ c ∈ log, c.index ∉ g.2.indices) :
    Logged input groups' i j log where
  spans c hc := by
    obtain ⟨hi, hle, hj, body, hbody, hspans⟩ := h.spans c hc
    exact ⟨hi, hle, hj, body, hsub hbody, hspans⟩
  ordered := h.ordered
  enclosed index body hbody before c behind hlog hc := by
    rcases hnew _ hbody with hold | hapart
    · exact h.enclosed index body hold before c behind hlog hc
    · have hmem : c ∈ log := hlog ▸ List.mem_append_right _ List.mem_cons_self
      exact absurd hc (hapart c hmem)

/-- One log behind another. -/
theorem append (h : Logged input groups i k log) (h' : Logged input groups k j log')
    (hik : i ≤ k) (hkj : k ≤ j) : Logged input groups i j (log ++ log') where
  spans c hc := by
    rcases List.mem_append.1 hc with hc | hc
    · obtain ⟨hi, hle, hk, hbody⟩ := h.spans c hc
      exact ⟨hi, hle, Nat.le_trans hk hkj, hbody⟩
    · obtain ⟨hk, hle, hj, hbody⟩ := h'.spans c hc
      exact ⟨Nat.le_trans hik hk, hle, hj, hbody⟩
  ordered := by
    refine List.pairwise_append.2 ⟨h.ordered, h'.ordered, fun c hc d hd => ?_⟩
    obtain ⟨-, -, hck, -⟩ := h.spans c hc
    obtain ⟨hkd, hd, -, -⟩ := h'.spans d hd
    have hcd := Nat.le_trans hck hkd
    exact ⟨Nat.le_trans hcd hd, Or.inl hcd⟩
  enclosed index body hbody before c behind hlog hc := by
    rcases append_eq_append_cons hlog with ⟨rest, hfirst, rfl⟩ | ⟨rest, hsecond⟩
    · obtain ⟨d, hd, hencloses⟩ := h.enclosed index body hbody before c rest hfirst hc
      exact ⟨d, List.mem_append_left _ hd, hencloses⟩
    · exact h'.enclosed index body hbody rest c behind hsecond hc

/-- A capture that closes around all that has been logged since it opened. -/
theorem capture {e : Expr} {index : UInt8} (h : Logged input e.groups i j log)
    (hindex : index ∉ e.indices) (hij : i ≤ j) (hspans : e.Spans input i j) :
    Logged input ((index, e) :: e.groups) i j (log ++ [⟨index, i, j⟩]) where
  spans c hc := by
    rcases List.mem_append.1 hc with hc | hc
    · obtain ⟨hi, hle, hj, body, hbody, hspans⟩ := h.spans c hc
      exact ⟨hi, hle, hj, body, List.mem_cons_of_mem _ hbody, hspans⟩
    · rw [List.mem_singleton.1 hc]
      exact ⟨Nat.le_refl i, hij, Nat.le_refl j, e, List.mem_cons_self, hspans⟩
  ordered := by
    refine List.pairwise_append.2 ⟨h.ordered, List.pairwise_singleton .., fun c hc d hd => ?_⟩
    obtain ⟨hi, -, hj, -⟩ := h.spans c hc
    rw [List.mem_singleton.1 hd]
    exact ⟨hj, Or.inr hi⟩
  enclosed := by
    intro index' body hbody before c behind hlog hc
    have hinside : body.indices ⊆ e.indices := by
      rcases List.mem_cons.1 hbody with hbody | hbody
      · cases hbody
        exact List.Subset.refl _
      · exact Expr.indices_subset_of_mem_groups hbody
    rcases append_eq_append_cons hlog with ⟨rest, hfirst, rfl⟩ | ⟨rest, hlast⟩
    · have hmem : c ∈ log := hfirst ▸ List.mem_append_right _ List.mem_cons_self
      rcases List.mem_cons.1 hbody with hbody | hbody
      · cases hbody
        obtain ⟨hi, -, hj, -⟩ := h.spans c hmem
        exact ⟨_, List.mem_concat_self, rfl, hi, hj⟩
      · obtain ⟨d, hd, hencloses⟩ := h.enclosed index' body hbody before c rest hfirst hc
        exact ⟨d, List.mem_append_left _ hd, hencloses⟩
    · -- The capture that closes is inside no group.
      have hmem : c ∈ [(⟨index, i, j⟩ : Capture)] :=
        hlast ▸ List.mem_append_right _ List.mem_cons_self
      rw [List.mem_singleton.1 hmem] at hc
      exact absurd (hinside hc) hindex

end Logged

/-! ### Results -/

/-- From one point to another, within the input, only the captures of some groups are logged. -/
def Point.Logs (input : Array UInt8) (groups : List (UInt8 × Expr)) (s t : Point) : Prop :=
  s.pos ≤ input.size → s.pos ≤ t.pos ∧ t.pos ≤ input.size ∧
    ∃ log, t.log = s.log ++ log ∧ Logged input groups s.pos t.pos log

namespace Point.Logs

variable {input : Array UInt8} {groups groups' : List (UInt8 × Expr)} {s t u : Point}

theorem refl (s : Point) : s.Logs input groups s :=
  fun hs => ⟨Nat.le_refl _, hs, [], (List.append_nil _).symm, .nil ..⟩

theorem trans (h : s.Logs input groups t) (h' : t.Logs input groups u) : s.Logs input groups u := by
  intro hs
  obtain ⟨hst, ht, log, hlog, hlogged⟩ := h hs
  obtain ⟨htu, hu, log', hlog', hlogged'⟩ := h' ht
  refine ⟨Nat.le_trans hst htu, hu, log ++ log', ?_, hlogged.append hlogged' hst htu⟩
  rw [hlog', hlog, List.append_assoc]

/-- More groups change nothing, if none of those before is inside them. -/
theorem mono (h : s.Logs input groups t) (hsub : groups ⊆ groups')
    (hnew : ∀ g ∈ groups', g ∈ groups ∨ ∀ index ∈ groups.map Prod.fst, index ∉ g.2.indices) :
    s.Logs input groups' t := by
  intro hs
  obtain ⟨hst, ht, log, hlog, hlogged⟩ := h hs
  refine ⟨hst, ht, log, hlog, hlogged.mono hsub fun g hg => ?_⟩
  exact (hnew g hg).imp_right fun hapart c hc => hapart _ (hlogged.index_mem hc)

/-- One of two expressions that share no capture logs what both may log. -/
theorem left {a b : Expr} (h : s.Logs input a.groups t) (hapart : a.indices.Disjoint b.indices) :
    s.Logs input (a.groups ++ b.groups) t := by
  refine h.mono (List.subset_append_left _ _) fun g hg => ?_
  refine (List.mem_append.1 hg).imp_right fun hb index hindex hinside => ?_
  rw [a.map_fst_groups] at hindex
  exact hapart hindex (Expr.indices_subset_of_mem_groups hb hinside)

theorem right {a b : Expr} (h : s.Logs input b.groups t) (hapart : a.indices.Disjoint b.indices) :
    s.Logs input (a.groups ++ b.groups) t := by
  refine h.mono (List.subset_append_right _ _) fun g hg => ?_
  refine (List.mem_append.1 hg).symm.imp_right fun ha index hindex hinside => ?_
  rw [b.map_fst_groups] at hindex
  exact hapart (Expr.indices_subset_of_mem_groups ha hinside) hindex

end Point.Logs

/-- **Results log what their captures match.** -/
theorem Expr.logged_of_mem_results {input : Array UInt8} (e : Expr) (he : e.indices.Nodup)
    {s t : Point} (h : t ∈ e.results input s) : s.Logs input e.groups t := by
  induction e generalizing s t with
  | leaf l =>
    intro hs
    have hadv := (leaf l).advance_of_mem_results h
    refine ⟨hadv.pos_le, hadv.pos_le_size hs, [], ?_, .nil ..⟩
    rw [results] at h
    split at h
    · split at h
      · rw [List.mem_singleton.1 h, List.append_nil]
      · cases h
    · cases h
  | anchor a =>
    rw [results] at h
    split at h
    · rw [List.mem_singleton.1 h]
      exact .refl s
    · cases h
  | seq a b iha ihb =>
    obtain ⟨ha, hb, hapart⟩ := List.nodup_append'.1 he
    obtain ⟨u, hu, ht⟩ := List.mem_flatMap.1 h
    exact ((iha ha hu).left hapart).trans ((ihb hb ht).right hapart)
  | alt a b iha ihb =>
    obtain ⟨ha, hb, hapart⟩ := List.nodup_append'.1 he
    rcases List.mem_append.1 h with h | h
    · exact (iha ha h).left hapart
    · exact (ihb hb h).right hapart
  | capture index e ih =>
    obtain ⟨hindex, he⟩ := List.nodup_cons.1 he
    obtain ⟨u, hu, rfl⟩ := List.mem_map.1 h
    intro hs
    obtain ⟨hle, hsize, log, hlog, hlogged⟩ := ih he hu hs
    have hcapture := hlogged.capture hindex hle (e.spans_of_mem_results hs hu)
    refine ⟨hle, hsize, _, ?_, hcapture⟩
    rw [hlog, List.append_assoc]
  | repetition e q ih =>
    rw [results] at h
    split at h
    · exact rel_of_mem_iterates Point.Logs.refl (fun _ _ _ => Point.Logs.trans)
        (fun _ _ => ih he) (List.mem_of_mem_drop (mem_inOrder.1 h))
    · exact rel_of_mem_counted Point.Logs.refl (fun _ _ _ => Point.Logs.trans)
        (fun _ _ => ih he) h

end BoundedRegex
