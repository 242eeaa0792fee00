import Mathlib.Algebra.GroupWithZero.Nat
import Mathlib.Data.Finset.Lattice.Fold
import Mathlib.Data.List.GetD
import Mathlib.Order.Lattice.Nat
import BoundedRegex.Proofs.Pattern.Phrase

/-!
# Syntax trees, and the frames that they need

The compiler joins the parts of a sequence two by two, from left to right, and the alternatives of
an alternation as they come.  A syntax tree has them side by side, and has the brackets that do not
capture.  `Tree.frames` tells the frames that matching needs by one formula for each kind of node,
over all its parts at once and without a bound on the numbers.

* `Tree.exists_phrase` — the tokens of a tree are a phrase, and the counts of its expression are
  those of the tree.
* `Phrase.exists_tree` — the tokens of a phrase are those of a tree.
-/

namespace BoundedRegex

/-! ### Counts -/

/-- The most frames that are alive while the matcher is inside an expression, and the most that it
leaves behind. -/
@[ext]
structure Frames where
  peak : Nat
  residual : Nat
deriving DecidableEq

namespace Frames

/-- No frames at all. -/
def none : Frames := ⟨0, 0⟩

/-- A capture has a frame that is left behind if there are others to leave. -/
def captured (f : Frames) : Frames where
  peak := 1 + f.peak
  residual := if 0 < f.residual then 1 + f.residual else 0

/-- Inside a part of a sequence the frames are alive that the parts before it have left. -/
def sequence (parts : List Frames) : Frames where
  peak := (Finset.range parts.length).sup fun i =>
    ((parts.take i).map residual).sum + (parts.getD i none).peak
  residual := (parts.map residual).sum

/-- Every alternative but the last has a frame for those behind it. -/
def alternation (earlier : List Frames) (last : Frames) : Frames where
  peak := (earlier.map (1 + ·.peak)).foldr Nat.max last.peak
  residual := (earlier.map (1 + ·.residual)).foldr Nat.max last.residual

/-- A repetition has one frame, if its body is a single byte, if it has no upper bound, or if the
body leaves no frames; otherwise its iterations keep theirs. -/
def repeated (q : Quantifier) (singleByte : Bool) (f : Frames) : Frames :=
  if singleByte then ⟨1, 1⟩
  else if q.max = unboundedCount ∨ f.residual = 0 then ⟨1 + f.peak, 1⟩
  else
    { peak := (f.residual + 1) * (q.max.toNat - 1) + f.peak + 1
      residual := (f.residual + 1) * q.max.toNat }

/-- A sequence with one part more. -/
theorem sequence_concat (parts : List Frames) (f : Frames) :
    sequence (parts ++ [f]) =
      { peak := Nat.max (sequence parts).peak ((sequence parts).residual + f.peak)
        residual := (sequence parts).residual + f.residual } := by
  have hearlier : ((Finset.range parts.length).sup fun i =>
        (((parts ++ [f]).take i).map residual).sum + ((parts ++ [f]).getD i none).peak) =
      (sequence parts).peak := by
    refine Finset.sup_congr rfl fun i hi => ?_
    have hi := Finset.mem_range.1 hi
    rw [List.take_append_of_le_length (Nat.le_of_lt hi), List.getD_append _ _ _ _ hi]
  have hlast : (((parts ++ [f]).take parts.length).map residual).sum +
      ((parts ++ [f]).getD parts.length none).peak = (sequence parts).residual + f.peak := by
    rw [List.take_left, List.getD_append_right _ _ _ _ (Nat.le_refl _), Nat.sub_self]
    rfl
  ext
  · show (Finset.range (parts ++ [f]).length).sup _ = _
    rw [List.length_append, List.length_singleton, Finset.range_add_one, Finset.sup_insert,
      hearlier, hlast]
    exact max_comm _ _
  · simp [sequence]

end Frames

namespace Expr

/-- The frames that an expression needs. -/
def frames (e : Expr) : Frames := ⟨e.peak, e.residual⟩

variable {e f : Expr}

theorem peak_of_isLeaf (h : e.isLeaf = true) : e.peak = 0 := by
  cases e with
  | leaf => rfl
  | _ => cases h

theorem frames_seq {parts : List Frames} (he : e.frames = .sequence parts) :
    (seq e f).frames = .sequence (parts ++ [f.frames]) := by
  rw [Frames.sequence_concat, ← he]
  rfl

theorem frames_alt {earlier : List Frames} {last : Frames}
    (hf : f.frames = .alternation earlier last) :
    (alt e f).frames = .alternation (e.frames :: earlier) last := by
  have hpeak : f.peak = (Frames.alternation earlier last).peak := congrArg Frames.peak hf
  have hresidual : f.residual = (Frames.alternation earlier last).residual :=
    congrArg Frames.residual hf
  ext
  · show Nat.max (e.peak + 1) f.peak = Nat.max (1 + e.peak) _
    rw [hpeak, Nat.add_comm]
    rfl
  · show Nat.max (e.residual + 1) f.residual = Nat.max (1 + e.residual) _
    rw [hresidual, Nat.add_comm]
    rfl

theorem frames_capture (index : UInt8) : (capture index e).frames = e.frames.captured := by
  ext
  · exact Nat.add_comm _ _
  · simp only [frames, residual, Frames.captured, Nat.add_comm 1]

theorem frames_repetition (q : Quantifier) :
    (repetition e q).frames = e.frames.repeated q e.isLeaf := by
  rw [Frames.repeated]
  split
  · next hleaf =>
    have hresidual := residual_of_isLeaf hleaf
    have hpeak := peak_of_isLeaf hleaf
    ext
    · simp [frames, peak, hresidual, hpeak]
    · simp [frames, residual, hresidual]
  · have hcommitted : (q.max = unboundedCount ∨ e.frames.residual = 0) ↔
        ¬(q.max ≠ unboundedCount ∧ 0 < e.residual) := by
      rw [not_and_or, not_ne_iff, Nat.not_lt, Nat.le_zero]
      rfl
    by_cases hk : q.max ≠ unboundedCount ∧ 0 < e.residual
    · rw [if_neg (fun h => hcommitted.1 h hk), frames, peak, residual, if_pos hk, if_pos hk]
      rfl
    · rw [if_pos (hcommitted.2 hk), frames, peak, residual, if_neg hk, if_neg hk, Nat.add_comm]
      rfl

end Expr

/-! ### Trees -/

/-- The syntax tree of a phrase: an alternation has the alternatives before the last one in a list,
and a sequence the parts behind the first one. -/
inductive Tree : Category → Type where
  | leaf (l : Leaf) : Tree .element
  | anchor (a : Anchor) : Tree .element
  | group (t : Tree .alternation) : Tree .element
  | capture (t : Tree .alternation) : Tree .element
  | single (t : Tree .element) : Tree .atom
  | quantified (t : Tree .element) (q : Quantifier) : Tree .atom
  | sequence (first : Tree .atom) (rest : List (Tree .atom)) : Tree .sequence
  | alternation (earlier : List (Tree .sequence)) (last : Tree .sequence) : Tree .alternation

/-- The token of a leaf. -/
def Leaf.token : Leaf → TokenKind
  | byte b => .byte b
  | set s => .set s
  | anyByte => .anyByte

/-- The token of an anchor. -/
def Anchor.token : Anchor → TokenKind
  | start => .inputStart
  | stop => .inputEnd

namespace Tree

mutual

/-- The tokens of a tree. -/
def tokens : {c : Category} → Tree c → List TokenKind
  | _, leaf l => [l.token]
  | _, anchor a => [a.token]
  | _, group t => .groupOpen :: t.tokens ++ [.groupClose]
  | _, capture t => .captureOpen :: t.tokens ++ [.captureClose]
  | _, single t => t.tokens
  | _, quantified t q => t.tokens ++ [.quantifier q]
  | _, sequence first rest => first.tokens ++ tokensOf rest
  | _, alternation earlier last => tokensBefore earlier ++ last.tokens

/-- The tokens of the parts of a sequence. -/
def tokensOf : List (Tree .atom) → List TokenKind
  | [] => []
  | t :: rest => t.tokens ++ tokensOf rest

/-- The tokens of alternatives that others follow. -/
def tokensBefore : List (Tree .sequence) → List TokenKind
  | [] => []
  | t :: rest => t.tokens ++ .alternation :: tokensBefore rest

end

/-- Whether a tree consumes a single byte, and brackets around that change nothing. -/
def isSingleByte : {c : Category} → Tree c → Bool
  | _, leaf _ => true
  | _, anchor _ | _, capture _ | _, quantified .. => false
  | _, group t => t.isSingleByte
  | _, single t => t.isSingleByte
  | _, sequence first rest => rest.isEmpty && first.isSingleByte
  | _, alternation earlier last => earlier.isEmpty && last.isSingleByte

mutual

/-- The frames that a tree needs. -/
def frames : {c : Category} → Tree c → Frames
  | _, leaf _ | _, anchor _ => .none
  | _, group t => t.frames
  | _, capture t => t.frames.captured
  | _, single t => t.frames
  | _, quantified t q => t.frames.repeated q t.isSingleByte
  | _, sequence first rest => .sequence (first.frames :: framesOf rest)
  | _, alternation earlier last => .alternation (framesBefore earlier) last.frames

/-- The frames that the parts of a sequence need, one by one. -/
def framesOf : List (Tree .atom) → List Frames
  | [] => []
  | t :: rest => t.frames :: framesOf rest

/-- The frames that alternatives need, one by one. -/
def framesBefore : List (Tree .sequence) → List Frames
  | [] => []
  | t :: rest => t.frames :: framesBefore rest

end

theorem frames_sequence (first : Tree .atom) (rest : List (Tree .atom)) :
    (sequence first rest).frames = .sequence ((first :: rest).map frames) := by
  have hrest : framesOf rest = rest.map frames := by
    induction rest with
    | nil => rfl
    | cons t rest ih => rw [framesOf, ih, List.map_cons]
  rw [frames, hrest, List.map_cons]

theorem frames_alternation (earlier : List (Tree .sequence)) (last : Tree .sequence) :
    (alternation earlier last).frames = .alternation (earlier.map frames) last.frames := by
  have hearlier : framesBefore earlier = earlier.map frames := by
    induction earlier with
    | nil => rfl
    | cons t earlier ih => rw [framesBefore, ih, List.map_cons]
  rw [frames, hearlier]

/-! ### The phrase of a tree -/

theorem phrase_leaf (l : Leaf) (n : Nat) : Phrase .element n [l.token] (.leaf l) n 0 := by
  cases l with
  | byte b => exact .byte n b
  | set s => exact .set n s
  | anyByte => exact .anyByte n

theorem phrase_anchor (a : Anchor) (n : Nat) : Phrase .element n [a.token] (.anchor a) n 0 := by
  cases a with
  | start => exact .inputStart n
  | stop => exact .inputEnd n

mutual

/-- **The tokens of a tree are a phrase, whose expression needs the frames of the tree.** -/
theorem exists_phrase : {c : Category} → (t : Tree c) → (n : Nat) →
    ∃ e n' d, Phrase c n t.tokens e n' d ∧ e.frames = t.frames ∧ e.isLeaf = t.isSingleByte
  | _, leaf l, n => ⟨.leaf l, n, 0, phrase_leaf l n, rfl, rfl⟩
  | _, anchor a, n => ⟨.anchor a, n, 0, phrase_anchor a n, rfl, rfl⟩
  | _, group t, n => by
    obtain ⟨e, n', d, h, hframes, hleaf⟩ := t.exists_phrase n
    exact ⟨e, n', d + 1, .group h, hframes, hleaf⟩
  | _, capture t, n => by
    obtain ⟨e, n', d, h, hframes, -⟩ := t.exists_phrase (n + 1)
    exact ⟨.capture (.ofNat n) e, n', d + 1, .capture h,
      (Expr.frames_capture _).trans (congrArg _ hframes), rfl⟩
  | _, single t, n => by
    obtain ⟨e, n', d, h, hframes, hleaf⟩ := t.exists_phrase n
    exact ⟨e, n', d, .single h, hframes, hleaf⟩
  | _, quantified t q, n => by
    obtain ⟨e, n', d, h, hframes, hleaf⟩ := t.exists_phrase n
    refine ⟨.repetition e q, n', d, .quantified q h, ?_, rfl⟩
    rw [Expr.frames_repetition, hframes, hleaf, frames]
  | _, sequence first rest, n => by
    obtain ⟨e, n₁, d, h, hframes, hleaf⟩ := first.exists_phrase n
    have hone : e.frames = .sequence [first.frames] := by
      rw [hframes, ← List.nil_append [first.frames], Frames.sequence_concat]
      ext
      · exact (Nat.zero_add _).symm.trans (Nat.zero_max _).symm
      · exact (Nat.zero_add _).symm
    obtain ⟨f, n', d', h', hframes', hleaf'⟩ := exists_phrase_of rest (.one h) hone
    exact ⟨f, n', d', h', hframes', hleaf'.trans (congrArg _ hleaf)⟩
  | _, alternation earlier last, n =>
    exists_phrase_before earlier (fun n => last.exists_phrase n) n

/-- With the parts of a sequence that there are, more parts make up a sequence. -/
theorem exists_phrase_of : (rest : List (Tree .atom)) → {n n₁ d : Nat} →
    {tokens : List TokenKind} → {e : Expr} → {parts : List Frames} →
    (h : Phrase .sequence n tokens e n₁ d) → (he : e.frames = .sequence parts) →
    ∃ f n' d', Phrase .sequence n (tokens ++ tokensOf rest) f n' d' ∧
      f.frames = .sequence (parts ++ framesOf rest) ∧ f.isLeaf = (rest.isEmpty && e.isLeaf)
  | [], n, n₁, d, tokens, e, parts, h, he => by
    rw [tokensOf, List.append_nil, framesOf, List.append_nil]
    exact ⟨e, n₁, d, h, he, rfl⟩
  | t :: rest, n, n₁, d, tokens, e, parts, h, he => by
    obtain ⟨f, n₂, d₂, h', hframes, -⟩ := t.exists_phrase n₁
    have hseq := Expr.frames_seq (f := f) he
    obtain ⟨g, n', d', h'', hframes', hleaf⟩ := exists_phrase_of rest (.more h h') hseq
    rw [List.append_assoc] at h'' hframes'
    rw [hframes] at hframes'
    exact ⟨g, n', d', h'', hframes', hleaf.trans (Bool.and_false _)⟩

/-- Alternatives in front of a sequence make up an alternation. -/
theorem exists_phrase_before : (earlier : List (Tree .sequence)) → {tokens : List TokenKind} →
    {last : Frames} → {singleByte : Bool} →
    (hlast : ∀ n, ∃ e n' d, Phrase .sequence n tokens e n' d ∧ e.frames = last ∧
      e.isLeaf = singleByte) → (n : Nat) →
    ∃ e n' d, Phrase .alternation n (tokensBefore earlier ++ tokens) e n' d ∧
      e.frames = .alternation (framesBefore earlier) last ∧
        e.isLeaf = (earlier.isEmpty && singleByte)
  | [], _, _, _, hlast, n => by
    obtain ⟨e, n', d, h, hframes, hleaf⟩ := hlast n
    exact ⟨e, n', d, .last h, hframes, hleaf⟩
  | t :: earlier, _, _, _, hlast, n => by
    obtain ⟨e, n₁, d, h, hframes, -⟩ := t.exists_phrase n
    obtain ⟨f, n', d', h', hframes', -⟩ := exists_phrase_before earlier hlast n₁
    refine ⟨.alt e f, n', Nat.max d d', ?_, ?_, rfl⟩
    · rw [tokensBefore, List.append_assoc, List.cons_append]
      exact .either h h'
    · rw [Expr.frames_alt hframes', hframes, framesBefore]

end

theorem tokensOf_append (l l' : List (Tree .atom)) :
    tokensOf (l ++ l') = tokensOf l ++ tokensOf l' := by
  induction l with
  | nil => rfl
  | cons t l ih => rw [List.cons_append, tokensOf, ih, tokensOf, List.append_assoc]

end Tree

/-- **The tokens of a phrase are those of a tree.** -/
theorem Phrase.exists_tree {c : Category} {n n' d : Nat} {tokens : List TokenKind} {e : Expr}
    (h : Phrase c n tokens e n' d) : ∃ t : Tree c, t.tokens = tokens := by
  induction h with
  | byte n b => exact ⟨.leaf (.byte b), rfl⟩
  | set n s => exact ⟨.leaf (.set s), rfl⟩
  | anyByte n => exact ⟨.leaf .anyByte, rfl⟩
  | inputStart n => exact ⟨.anchor .start, rfl⟩
  | inputEnd n => exact ⟨.anchor .stop, rfl⟩
  | group _ ih =>
    obtain ⟨t, rfl⟩ := ih
    exact ⟨.group t, rfl⟩
  | capture _ ih =>
    obtain ⟨t, rfl⟩ := ih
    exact ⟨.capture t, rfl⟩
  | single _ ih =>
    obtain ⟨t, rfl⟩ := ih
    exact ⟨.single t, rfl⟩
  | quantified q _ ih =>
    obtain ⟨t, rfl⟩ := ih
    exact ⟨.quantified t q, rfl⟩
  | one _ ih =>
    obtain ⟨t, rfl⟩ := ih
    exact ⟨.sequence t [], List.append_nil _⟩
  | more _ _ ih ih' =>
    obtain ⟨s, rfl⟩ := ih
    obtain ⟨t, rfl⟩ := ih'
    cases s with
    | sequence first rest =>
      refine ⟨.sequence first (rest ++ [t]), ?_⟩
      simp [Tree.tokens, Tree.tokensOf_append, Tree.tokensOf]
  | last _ ih =>
    obtain ⟨t, rfl⟩ := ih
    exact ⟨.alternation [] t, rfl⟩
  | either _ _ ih ih' =>
    obtain ⟨t, rfl⟩ := ih
    obtain ⟨s, rfl⟩ := ih'
    cases s with
    | alternation earlier last =>
      refine ⟨.alternation (t :: earlier) last, ?_⟩
      simp [Tree.tokens, Tree.tokensBefore]

end BoundedRegex
