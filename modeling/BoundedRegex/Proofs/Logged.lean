import BoundedRegex.Proofs.Generated
import BoundedRegex.Proofs.Pattern.Captures

/-!
# Captures of reported matches

Whatever buffers a matcher has, the captures of the matches that it reports are in order
(`Compiler.tryMatch_logs`): each is a span of the body of its group, within the match, their ends do
not go back, any two of them are nested or apart, and what a group has inside it is logged before
the group around it.
-/

namespace BoundedRegex

/-- **Reported matches log what their captures match.**  A pattern that compiles stands for just one
expression, in which no two captures share an index.  With buffers of any lengths, on any input and
from any offset, the matches that `tryMatch` reports, to any callback, start there, and have logs of
the groups of the expression, from their start to their end. -/
theorem Compiler.tryMatch_logs {c : Compiler} {pattern buffer : List UInt8} {r : Regex}
    (h : c.compile pattern buffer = .ok r) :
    ∃ e n, Derives .alternation 0 (Lexemes.kinds pattern) e n ∧
      (∀ e' n', Derives .alternation 0 (Lexemes.kinds pattern) e' n' → e' = e) ∧
      e.indices.Nodup ∧
      ∀ m : Matcher, m.program = .ofCode r.code → ∀ (input : Array UInt8) (start : Nat),
        ∀ {σ : Type} (f : Callback σ) (Keeps : σ → Prop) (gathered : σ),
          (∀ gathered found, Keeps gathered → found.start = start →
            Logged input e.groups start found.stop found.captures →
              Keeps (f gathered found).1) → Keeps gathered →
          Keeps (m.tryMatch input start f gathered).gathered ∧
            ∀ found, (m.tryMatch input start f gathered).outcome = .ok (some found) →
              found.start = start ∧ Logged input e.groups start found.stop found.captures := by
  obtain ⟨e, n, hderives, hwf, hcode, -, -⟩ := c.compile_derives h
  refine ⟨e, n, hderives, fun e' n' h' => (h'.unique hderives).1, hderives.nodup_indices, ?_⟩
  intro m hm input start σ f Keeps gathered hf hg
  by_cases hstart : start ≤ input.size
  · have henum : Enumerates m.program input e.peak (.running 0 start [] [])
        (e.results input ⟨start, []⟩) :=
      hm ▸ Expr.enumerates_of_code hwf hcode r.code_le hstart (Nat.le_refl _)
    have hlogs : ∀ t ∈ e.results input ⟨start, []⟩, Logged input e.groups start t.pos t.log := by
      intro t ht
      obtain ⟨-, -, log, hlog, hlogged⟩ := e.logged_of_mem_results hderives.nodup_indices ht hstart
      rw [hlog]
      exact hlogged
    obtain ⟨hkeeps, hfound⟩ := Matcher.tryMatch_keeps hstart henum f
      (fun gathered t ht hg => hf gathered _ hg rfl (hlogs t ht)) hg
    refine ⟨hkeeps, fun found hok => ?_⟩
    obtain ⟨t, ht, rfl⟩ := hfound found hok
    exact ⟨rfl, hlogs t ht⟩
  · rw [Matcher.tryMatch, if_neg hstart]
    refine ⟨hg, fun found hok => ?_⟩
    cases hok

theorem Compiler.tryMatch_logs_branching :
    ({} : Compiler).compile [0x3c, 0x61, 0x7c, 0x62, 0x3e, 0x7b, 0x32, 0x7d]
        (List.replicate 39 0) = .ok .branching ∧
      ((Matcher.ofRegex .branching 6 2).enumeration #[0x61, 0x62] 0).gathered =
        [⟨0, 2, [⟨0, 0, 1⟩, ⟨0, 1, 2⟩]⟩] ∧
      Logged #[0x61, 0x62] Expr.branching.groups 0 2 [⟨0, 0, 1⟩, ⟨0, 1, 2⟩] := by
  obtain ⟨e, n, hderives, hunique, -, hlogs⟩ := Compiler.tryMatch_logs Compiler.compile_branching
  obtain rfl := hunique _ _ Expr.derives_branching
  have hgathered : ((Matcher.ofRegex .branching 6 2).enumeration #[0x61, 0x62] 0).gathered =
      [⟨0, 2, [⟨0, 0, 1⟩, ⟨0, 1, 2⟩]⟩] := by
    decide +kernel
  have hkeeps := (hlogs (.ofRegex .branching 6 2) rfl #[0x61, 0x62] 0 Matcher.collectAll
    (fun all => ∀ found ∈ all,
      Logged #[0x61, 0x62] Expr.branching.groups 0 found.stop found.captures) []
    (fun all found hall _ hfound => by
      intro found' hmem
      rcases List.mem_append.1 hmem with hmem | hmem
      · exact hall found' hmem
      · rw [List.mem_singleton.1 hmem]
        exact hfound)
    nofun).1
  refine ⟨Compiler.compile_branching, hgathered, ?_⟩
  change ∀ found ∈ ((Matcher.ofRegex .branching 6 2).enumeration #[0x61, 0x62] 0).gathered, _
    at hkeeps
  rw [hgathered] at hkeeps
  exact hkeeps _ List.mem_cons_self

end BoundedRegex
