import BoundedRegex.Proofs.Pattern.Grammar
import BoundedRegex.Proofs.Pattern.SetText

/-!
# Tokens end by themselves

A token that is read from the start of a text is read as well if more text follows, and it lies
within the text (`TokenKind.scan_append`).  Only a quantifier looks beyond its end: a question mark
there belongs to it.  So the tokens of two texts, one behind the other, are those of the first and
those of the second (`Lexemes.ofText_append`), and as these do not depend on where a text starts
(`Lexemes.ofText_add`), a pattern behind another is read as it is by itself
(`Lexemes.ofPattern_append`).
-/

namespace BoundedRegex

namespace TokenKind

/-- Whether a token is a quantifier that a question mark behind it would change. -/
def isGreedy : TokenKind → Bool
  | .quantifier q => q.greedy
  | _ => false

variable {b : UInt8} {rest : List UInt8} {n : Nat}

theorem escape?_append {item : SetItem} (h : escape? rest = some (item, n)) (q : List UInt8) :
    escape? (rest ++ q) = some (item, n) ∧ n ≤ rest.length := by
  obtain ⟨w, tail, rfl, hescape, rfl⟩ := exists_escape h
  rw [List.append_assoc, List.length_append]
  exact ⟨escape?_of_escape hescape _, Nat.le_add_right ..⟩

theorem bracketed_append {s : ByteSet} (h : bracketed rest = .ok (s, n)) (q : List UInt8) :
    bracketed (rest ++ q) = .ok (s, n) ∧ 0 < n ∧ n ≤ rest.length + 1 := by
  cases rest with
  | nil => cases h
  | cons b rest =>
    rw [List.cons_append]
    simp only [bracketed] at h ⊢
    split at h
    · next hb =>
      rw [if_pos hb, List.length_cons]
      obtain ⟨hmembers, hlt, hle⟩ := members_append h q
      exact ⟨hmembers, by omega⟩
    · next hb =>
      rw [if_neg hb]
      obtain ⟨hmembers, hlt, hle⟩ := members_append h q
      exact ⟨hmembers, by omega⟩

theorem braces_append {min max : UInt8} (h : braces rest = .ok (min, max, n)) (q : List UInt8) :
    braces (rest ++ q) = .ok (min, max, n) ∧ 0 < n ∧ n ≤ rest.length + 1 := by
  obtain ⟨body, tail, rfl, hclose, hcounts, rfl⟩ := exists_of_braces h
  rw [List.append_assoc, List.cons_append, List.length_append, List.length_cons]
  exact ⟨braces_of_counts hclose hcounts, by omega⟩

theorem quantified_append {min max : UInt8} {kind : TokenKind} {k : Nat}
    (h : quantified min max k rest = (kind, n)) {q : List UInt8}
    (hq : q.head? = some '?'.toUInt8 → ¬(kind.isGreedy = true ∧ rest = [])) :
    quantified min max k (rest ++ q) = (kind, n) ∧ k ≤ n ∧ n ≤ k + rest.length := by
  cases rest with
  | nil =>
    cases h
    have hhead : q.head? ≠ some '?'.toUInt8 := fun hhead => hq hhead ⟨rfl, rfl⟩
    exact ⟨if_neg hhead, Nat.le_refl _, Nat.le_refl _⟩
  | cons b rest =>
    refine ⟨h, ?_⟩
    unfold quantified at h
    rw [List.length_cons]
    split at h <;> cases h <;> omega

/-- **A token is read whatever comes behind it**, unless that is a question mark and the token a
greedy quantifier. -/
theorem scan_append {kind : TokenKind} (h : scan b rest = .ok (kind, n)) {q : List UInt8}
    (hq : q.head? = some '?'.toUInt8 → ¬(kind.isGreedy = true ∧ n = rest.length + 1)) :
    scan b (rest ++ q) = .ok (kind, n) ∧ 0 < n ∧ n ≤ rest.length + 1 := by
  have hone {kind' : TokenKind}
      (h : (.ok (kind', 1) : Except SyntaxError (TokenKind × Nat)) = .ok (kind, n)) :
      (.ok (kind', 1) : Except SyntaxError (TokenKind × Nat)) = .ok (kind, n) ∧ 0 < n ∧
        n ≤ rest.length + 1 := by
    cases h
    exact ⟨rfl, Nat.zero_lt_one, Nat.le_add_left ..⟩
  have hquantifier {min max : UInt8} {k : Nat} (hk : 0 < k) (hle : k ≤ rest.length + 1)
      (h : (.ok (quantified min max k (rest.drop (k - 1))) :
        Except SyntaxError (TokenKind × Nat)) = .ok (kind, n)) :
      (.ok (quantified min max k ((rest ++ q).drop (k - 1))) :
        Except SyntaxError (TokenKind × Nat)) = .ok (kind, n) ∧ 0 < n ∧ n ≤ rest.length + 1 := by
    have h := Except.ok.inj h
    rw [List.drop_append_of_le_length (by omega)]
    obtain ⟨hquantified, hlt, hle'⟩ := quantified_append h (q := q) (by
      rintro hhead ⟨hgreedy, hnil⟩
      have hlength := List.drop_eq_nil_iff.1 hnil
      rw [hnil] at h
      cases h
      exact hq hhead ⟨hgreedy, by omega⟩)
    rw [List.length_drop] at hle'
    exact ⟨congrArg Except.ok hquantified, by omega⟩
  unfold scan at h ⊢
  generalize Char.ofUInt8 b = c at h ⊢
  split at h
  case h_9 | h_10 => cases h
  case h_11 | h_12 | h_13 =>
    exact hquantifier Nat.zero_lt_one (Nat.le_add_left ..) h
  case h_14 =>
    split at h
    · next hbraces =>
      obtain ⟨hbraces', hlt, hle⟩ := braces_append hbraces q
      rw [hbraces']
      exact hquantifier hlt hle h
    · cases h
  case h_15 =>
    split at h
    · next hset =>
      obtain ⟨hset', hlt, hle⟩ := bracketed_append hset q
      cases h
      rw [hset']
      exact ⟨rfl, hlt, hle⟩
    · cases h
  case h_16 =>
    split at h
    · next hescape =>
      obtain ⟨hescape', hle⟩ := escape?_append hescape q
      cases h
      rw [hescape']
      exact ⟨rfl, Nat.succ_pos _, Nat.succ_le_succ hle⟩
    · next hescape =>
      obtain ⟨hescape', hle⟩ := escape?_append hescape q
      cases h
      rw [hescape']
      exact ⟨rfl, Nat.succ_pos _, Nat.succ_le_succ hle⟩
    · cases h
  all_goals exact hone h

end TokenKind

namespace Lexemes

/-! ### A text behind another -/

/-- The lexemes of a text with `k` bytes more in front of it. -/
def shift (ls : Lexemes) (k : Nat) : Lexemes :=
  { tokens := ls.tokens.map fun t => { t with position := k + t.position }
    ending :=
      match ls.ending with
      | .ok length => .ok (k + length)
      | .error e => .error (e.shift k) }

@[simp] theorem map_kind_shift (ls : Lexemes) (k : Nat) :
    (ls.shift k).tokens.map (·.kind) = ls.tokens.map (·.kind) := by
  rw [shift, List.map_map]
  rfl

/-- Tokens do not depend on where a text starts, but for their positions. -/
theorem ofText_add (k pos : Nat) (text : List UInt8) :
    ofText (k + pos) text = (ofText pos text).shift k := by
  induction pos, text using ofText.induct with
  | case1 pos => rw [ofText_nil, ofText_nil, shift, List.map_nil]
  | case2 pos b rest e hscan =>
    rw [ofText, ofText, hscan, shift, List.map_nil]
    dsimp only [SyntaxError.shift]
    rw [Nat.add_assoc]
  | case3 pos b rest kind n hscan ih =>
    rw [← Nat.add_assoc] at ih
    rw [ofText_cons hscan ih, ofText_cons hscan rfl]
    rfl

/-- The lexemes of a text, with those of another that starts behind it, at offset `pos`. -/
def followedBy (ls : Lexemes) (pos : Nat) (q : List UInt8) : Lexemes :=
  { tokens := ls.tokens ++ (ofText pos q).tokens, ending := (ofText pos q).ending }

/-- **Tokens end by themselves.**  If a text can be read to its end, its tokens are read as well
with another text behind it, and then come those of the other; unless that starts with a question
mark and the last token is a greedy quantifier. -/
theorem ofText_append {pos length : Nat} {p q : List UInt8}
    (hp : (ofText pos p).ending = .ok length)
    (hq : q.head? = some '?'.toUInt8 →
      ∀ t, (ofText pos p).tokens.getLast? = some t → t.kind.isGreedy = false) :
    length = pos + p.length ∧ ofText pos (p ++ q) = (ofText pos p).followedBy length q := by
  induction pos, p using ofText.induct with
  | case1 pos =>
    rw [ofText_nil] at hp ⊢
    cases hp
    exact ⟨rfl, rfl⟩
  | case2 pos b rest e hscan =>
    rw [ofText, hscan] at hp
    cases hp
  | case3 pos b rest kind n hscan ih =>
    rw [ofText_cons hscan rfl] at hp hq ⊢
    have hlast (hhead : q.head? = some '?'.toUInt8) :
        ¬(kind.isGreedy = true ∧ n = rest.length + 1) := by
      rintro ⟨hgreedy, rfl⟩
      rw [Nat.add_sub_cancel, List.drop_length, ofText_nil] at hq
      exact Bool.false_ne_true ((hq hhead _ rfl).symm.trans hgreedy)
    obtain ⟨hscan', hlt, hle⟩ := TokenKind.scan_append hscan hlast
    obtain ⟨hlength, hrest⟩ := ih hp fun hhead t ht => hq hhead t (by
      rw [cons, List.getLast?_cons, ht]
      rfl)
    rw [List.length_drop] at hlength
    refine ⟨by rw [List.length_cons]; omega, ?_⟩
    have hdrop : (rest ++ q).drop (n - 1) = rest.drop (n - 1) ++ q :=
      List.drop_append_of_le_length (by omega)
    exact ofText_cons hscan' (hdrop ▸ hrest)

/-- **A pattern behind another is read as it is by itself.**  If a pattern can be read to its end, then
with another behind it its tokens stay what they are, where they are, and those of the other follow, as
far behind as the first is long.  So does the end of the other, or its error.  The one exception is a
question mark right behind a greedy quantifier. -/
theorem ofPattern_append {p q : List UInt8} {length : Nat}
    (hp : (ofPattern p).ending = .ok length)
    (hq : ¬(q.head? = some '?'.toUInt8 ∧
      ∃ t, (ofPattern p).tokens.getLast? = some t ∧ t.kind.isGreedy = true)) :
    length = p.length ∧
      (ofPattern (p ++ q)).tokens =
        (ofPattern p).tokens ++ ((ofPattern q).shift p.length).tokens ∧
      (ofPattern (p ++ q)).ending = ((ofPattern q).shift p.length).ending := by
  have hlast (hhead : q.head? = some '?'.toUInt8) :
      ∀ t, (ofPattern p).tokens.getLast? = some t → t.kind.isGreedy = false := fun t ht =>
    eq_false_of_ne_true fun hgreedy => hq ⟨hhead, t, ht, hgreedy⟩
  obtain ⟨hlength, happend⟩ := ofText_append hp hlast
  rw [Nat.zero_add] at hlength
  have hbehind : ofText length q = (ofPattern q).shift p.length := by
    rw [hlength]
    exact ofText_add p.length 0 q
  rw [ofPattern, happend, followedBy, hbehind]
  exact ⟨hlength, rfl, rfl⟩

/-- Behind `a{2}`, the token `b` is read, and the braces behind it are refused at the blank in them. -/
theorem ofPattern_append_blank :
    (ofPattern [0x61, 0x7b, 0x32, 0x7d]).ending = .ok 4 ∧
      (ofPattern [0x61, 0x7b, 0x32, 0x7d, 0x62, 0x7b, 0x31, 0x20, 0x7d]).tokens =
        [⟨.byte 0x61, 0⟩, ⟨.quantifier ⟨2, 2, true⟩, 1⟩, ⟨.byte 0x62, 4⟩] ∧
      (ofPattern [0x61, 0x7b, 0x32, 0x7d, 0x62, 0x7b, 0x31, 0x20, 0x7d]).ending =
        .error ⟨.whitespaceInBraces, 7⟩ := by
  have ha (rest : List UInt8) : TokenKind.scan 0x61 rest = .ok (.byte 0x61, 1) := rfl
  have hb (rest : List UInt8) : TokenKind.scan 0x62 rest = .ok (.byte 0x62, 1) := rfl
  have hcount : TokenKind.scan 0x7b [0x32, 0x7d] = .ok (.quantifier ⟨2, 2, true⟩, 3) := rfl
  have hblank : ofText 1 [0x7b, 0x31, 0x20, 0x7d] = ⟨[], .error ⟨.whitespaceInBraces, 3⟩⟩ := by
    rw [ofText]
    rfl
  have hp : ofPattern [0x61, 0x7b, 0x32, 0x7d] =
      ⟨[⟨.byte 0x61, 0⟩, ⟨.quantifier ⟨2, 2, true⟩, 1⟩], .ok 4⟩ :=
    ofText_cons (ha _) (ofText_cons hcount (ofText_nil 4))
  have hq : ofPattern [0x62, 0x7b, 0x31, 0x20, 0x7d] =
      ⟨[⟨.byte 0x62, 0⟩], .error ⟨.whitespaceInBraces, 3⟩⟩ :=
    ofText_cons (hb _) hblank
  have hending := congrArg Lexemes.ending hp
  have happend := ofPattern_append (q := [0x62, 0x7b, 0x31, 0x20, 0x7d]) hending (by decide)
  rw [hp, hq] at happend
  exact ⟨hending, happend.2⟩

end Lexemes

end BoundedRegex
