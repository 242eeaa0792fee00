import BoundedRegex.Proofs.Pattern.Counts

/-!
# Repetition counts

An opening brace reads bounds just where the text up to the first closing brace stands for some, and
then it reads these; everywhere else it fails, and says what is wrong and where
(`TokenKind.braces_iff`).
-/

namespace BoundedRegex.TokenKind

/-- **Repetition counts are read exactly.**  Behind an opening brace, bounds are read just if there is
a closing brace and what stands before the first one stands for bounds; they are the bounds that are
read, and the token ends with that brace.  In every other text, and only there, something is wrong:
where a brace closes and there is white space before it, that is the first such white space, and
otherwise the counts are invalid, at the opening brace. -/
theorem braces_iff (rest : List UInt8) :
    (∀ m n length, braces rest = .ok (m, n, length) ↔
      ∃ body tail, rest = body ++ '\x7d'.toUInt8 :: tail ∧ '\x7d'.toUInt8 ∉ body ∧
        Counts body m.toNat n.toNat ∧ length = body.length + 2) ∧
    ∀ e, braces rest = .error e ↔ Misbraced rest e := by
  constructor
  · intro m n length
    refine ⟨exists_of_braces, ?_⟩
    rintro ⟨body, tail, rfl, hclose, hcounts, rfl⟩
    exact braces_of_counts hclose hcounts
  · intro e
    exact ⟨misbraced_of_braces, braces_of_misbraced⟩

/-- `007,0255}` has zeros in front. -/
example : braces [0x30, 0x30, 0x37, 0x2c, 0x30, 0x32, 0x35, 0x35, 0x7d] = .ok (7, 255, 10) := by
  decide +kernel

end BoundedRegex.TokenKind
