import Mathlib.Data.List.Nodup
import BoundedRegex.Proofs.Pattern.Phrase

/-!
# How captures are numbered

The captures of a pattern are numbered by the rank of their `<` among all the `<` of the pattern:
reading from left to right, they open in the order 0, 1, 2 … (`Derives.map_toNat_indices`), and
there are as many as there are such brackets (`Derives.eq_add_count`).  So no two captures share a
number.
-/

namespace BoundedRegex

variable {c : Category} {n n' : Nat} {tokens : List TokenKind} {e : Expr}

/-- Each `<` takes a number. -/
theorem Derives.eq_add_count (h : Derives c n tokens e n') :
    n' = n + tokens.count .captureOpen := by
  obtain ⟨d, hphrase, -⟩ := h.phrase
  exact hphrase.eq_add_count

/-- The captures inside a phrase are numbered in the order in which they open. -/
theorem Derives.map_toNat_indices (h : Derives c n tokens e n') :
    e.indices.map UInt8.toNat = List.range' n (n' - n) := by
  induction h with
  | byte | set | anyByte | inputStart | inputEnd => simp [Expr.indices]
  | group _ ih | single _ ih | quantified _ _ _ ih | one _ ih | last _ ih => exact ih
  | @capture n n' tokens e hn h ih =>
    have hle : n + 1 ≤ n' := h.eq_add_count ▸ Nat.le_add_right ..
    have hindex : (UInt8.ofNat n).toNat = n :=
      UInt8.toNat_ofNat_of_lt' (Nat.lt_trans hn (by decide))
    rw [Expr.indices, List.map_cons, ih, hindex, show n' - n = n' - (n + 1) + 1 by omega,
      List.range'_succ]
  | @more n n₁ n' _ _ _ _ h h' ih ih' | @either n n₁ n' _ _ _ _ h h' ih ih' =>
    have hle : n ≤ n₁ := h.eq_add_count ▸ Nat.le_add_right ..
    have hle' : n₁ ≤ n' := h'.eq_add_count ▸ Nat.le_add_right ..
    rw [Expr.indices, List.map_append, ih, ih', show n' - n = n₁ - n + (n' - n₁) by omega,
      ← List.range'_append_1, Nat.add_sub_cancel' hle]

theorem Derives.nodup_indices (h : Derives c n tokens e n') : e.indices.Nodup := by
  refine List.Nodup.of_map UInt8.toNat ?_
  rw [h.map_toNat_indices]
  exact List.nodup_range'

end BoundedRegex
