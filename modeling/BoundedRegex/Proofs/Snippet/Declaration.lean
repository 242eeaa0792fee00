import BoundedRegex.Proofs.Snippet.Array
import Mathlib.Data.List.TakeWhile

/-!
# Finding the declaration of a name

A declaration is found at the first place where `static`, the name, blanks and a colon stand, be it
in a comment or not.  The comment with the pattern is the only part of a rendered text, before the
declaration itself, that can have them.  As that comment ends with a quotation mark, in whatever way
the pattern is quoted, what is read from a rendered text is what is read from the comment alone, if
that has a declaration, and is the array otherwise (`declared?_renderWith_some`).
-/

namespace BoundedRegex.Snippet

open Text

/-- What the declaration of a name starts with. -/
def opening (name : String) : List Char :=
  ("static " ++ name).toList

/-! ### The first declaration -/

section

variable {needle text rest found : List Char} {c : Char}

/-- What follows a colon, which may have blanks before it. -/
def afterColon? (text : List Char) : Option (List Char) :=
  match trimStart text with
  | ':' :: found => some found
  | _ => none

theorem afterColon?_eq_some_iff : afterColon? text = some found ↔ trimStart text = ':' :: found := by
  unfold afterColon?
  split
  · next heq => simp [heq]
  · next hne => simpa using hne found

/-- A character that stops trimming ends the search for a colon. -/
theorem afterColon?_append (hblank : isBlank c = false) (hc : c ∈ text) (rest : List Char) :
    afterColon? (text ++ rest) = (afterColon? text).map (· ++ rest) := by
  have htrim : trimStart (text ++ rest) = trimStart text ++ rest := trimStart_append hblank hc
  rw [← mem_trimStart hblank] at hc
  obtain ⟨d, tail, htail⟩ := List.exists_cons_of_ne_nil (List.ne_nil_of_mem hc)
  unfold afterColon?
  rw [htrim, htail, List.cons_append]
  by_cases hd : d = ':'
  · subst hd; rfl
  · simp [hd]

theorem declaration?_eq (hne : needle ≠ []) (text : List Char) :
    declaration? needle text =
      (after? needle text).bind fun rest => (afterColon? rest).or (declaration? needle rest) := by
  rw [declaration?]
  cases hrest : after? needle text with
  | none => rfl
  | some rest =>
    simp only [if_pos (length_lt_of_after? hne hrest), Option.bind_some]
    unfold afterColon?
    cases htrim : trimStart rest with
    | nil => rfl
    | cons c tail =>
      by_cases hc : c = ':'
      · subst hc; rfl
      · simp [hc]

/-- What is skipped in searching for the name is skipped in searching for a declaration. -/
theorem declaration?_congr {text' : List Char} (hne : needle ≠ [])
    (h : after? needle text = after? needle text') :
    declaration? needle text = declaration? needle text' := by
  rw [declaration?_eq hne, h, ← declaration?_eq hne]

/-- A declaration is found at the name, blanks and a colon. -/
theorem exists_of_declaration? {text : List Char} (hne : needle ≠ [])
    (h : declaration? needle text = some found) :
    ∃ before blanks, text = before ++ needle ++ blanks ++ ':' :: found ∧
      ∀ c ∈ blanks, isBlank c = true := by
  rw [declaration?_eq hne] at h
  obtain ⟨rest, hrest, hfound⟩ := Option.bind_eq_some_iff.1 h
  obtain ⟨before, htext⟩ := exists_of_after? hrest
  rcases Option.or_eq_some_iff.1 hfound with hcolon | ⟨-, hlater⟩
  · have hrest : rest.takeWhile isBlank ++ ':' :: found = rest := by
      rw [← afterColon?_eq_some_iff.1 hcolon]
      exact List.takeWhile_append_dropWhile
    exact ⟨before, rest.takeWhile isBlank, by rw [List.append_assoc, hrest, htext],
      fun c => List.mem_takeWhile_imp⟩
  · have hlt := length_lt_of_after? hne hrest
    obtain ⟨before', blanks, hrest, hblanks⟩ := exists_of_declaration? hne hlater
    exact ⟨before ++ needle ++ before', blanks, by rw [htext, hrest]; simp, hblanks⟩
termination_by text.length

/-- What follows the colon goes on to the end of the text. -/
theorem mem_of_declaration? {before : List Char} (hne : needle ≠ []) (hc : c ≠ ':')
    (h : declaration? needle (before ++ [c]) = some found) : c ∈ found := by
  obtain ⟨front, blanks, htext, -⟩ := exists_of_declaration? hne h
  have hreverse : c :: before.reverse =
      found.reverse ++ ':' :: (front ++ needle ++ blanks).reverse := by
    simpa using congrArg List.reverse htext
  rw [← List.mem_reverse]
  cases hfound : found.reverse with
  | nil =>
    rw [hfound] at hreverse
    exact absurd (List.cons.inj hreverse).1 hc
  | cons d more =>
    rw [hfound] at hreverse
    rw [(List.cons.inj hreverse).1]
    exact List.mem_cons_self

/-- What is found on one side of a character that stops trimming and is not searched for, is found
whatever stands on the other side. -/
theorem declaration?_append_cons {before : List Char} (hne : needle ≠ []) (hc : c ∉ needle)
    (hblank : isBlank c = false) :
    declaration? needle (before ++ c :: rest) =
      ((declaration? needle (before ++ [c])).map (· ++ rest)).or (declaration? needle rest) := by
  rw [declaration?_eq hne, declaration?_eq hne (before ++ [c]), after?_append_cons hne hc,
    after?_append_cons hne hc, after?_nil hne, Option.or_none]
  cases hafter : after? needle before with
  | none =>
    rw [Option.map_none, Option.none_or, Option.map_none, Option.bind_none, Option.map_none,
      Option.none_or, ← declaration?_eq hne]
  | some tail =>
    have hlt := length_lt_of_after? hne hafter
    have hcolon : afterColon? (tail ++ c :: rest) = (afterColon? (tail ++ [c])).map (· ++ rest) := by
      rw [← afterColon?_append hblank (by simp), List.append_assoc]
      rfl
    simp only [Option.map_some, Option.some_or, Option.bind_some, hcolon]
    rw [declaration?_append_cons hne hc hblank, Option.map_or, Option.or_assoc]
termination_by before.length

end

/-! ### Rendered texts -/

variable {q : Quoting} {r : Regex} {name : String} {p : List UInt8}

/-- An identifier has no characters but letters, digits and underscores. -/
theorem mem_of_isIdentifier (h : isIdentifier name = true) {c : Char} (hc : c ∈ name.toList) :
    startsIdentifier c = true ∨ c.isDigit = true := by
  unfold isIdentifier at h
  split at h
  · next d rest heq =>
    rw [heq] at hc
    simp only [Bool.and_eq_true, List.all_eq_true, Bool.or_eq_true] at h
    rcases List.mem_cons.1 hc with rfl | hc
    · exact Or.inl h.1.1
    · exact h.2 c hc
  · cases h

theorem opening_eq (name : String) :
    opening name = 's' :: 't' :: (['a', 't', 'i', 'c', ' '] ++ name.toList) := by
  simp [opening]

theorem opening_ne_nil (name : String) : opening name ≠ [] := by
  simp [opening_eq]

theorem quote_not_mem_opening (h : isIdentifier name = true) : '"' ∉ opening name := by
  have hname : '"' ∉ name.toList := fun hc => by
    rcases mem_of_isIdentifier h hc with h | h
    · revert h; decide
    · revert h; decide
  simp [opening_eq, hname]

section

variable {before : List Char}

/-- No declaration starts without an `s`. -/
theorem after?_append (hs : 's' ∉ before) (rest : List Char) :
    after? (opening name) (before ++ rest) = after? (opening name) rest := by
  rw [opening_eq]
  exact after?_append_of_not_mem hs

/-- No declaration starts with an `s` that no `t` follows. -/
theorem after?_append_s {c : Char} (hs : 's' ∉ before) (hc : c ≠ 't') (rest : List Char) :
    after? (opening name) (before ++ 's' :: c :: rest) = after? (opening name) (c :: rest) := by
  rw [after?_append hs, opening_eq, after?_cons_of_second_ne hc]

end

theorem declaration?_append {before : List Char} (hs : 's' ∉ before) (rest : List Char) :
    declaration? (opening name) (before ++ rest) = declaration? (opening name) rest :=
  declaration?_congr (opening_ne_nil name) (after?_append hs rest)

theorem toList_comments_none (q : Quoting) (r : Regex) :
    (comments q r none).toList =
      "// Scratch depth: ".toList ++ Nat.toDigits 10 r.scratchDepth.toNat ++
        "\n// Captures: ".toList ++ Nat.toDigits 10 r.captures.toNat ++ " (".toList ++
        Nat.toDigits 10 r.loopCaptures.length ++ " inside loops)\n".toList := by
  unfold comments
  simp

theorem toList_comments_some (q : Quoting) (r : Regex) (p : List UInt8) :
    (comments q r (some p)).toList =
      "// Pattern: ".toList ++ (q.quote p).toList ++ '\n' :: (comments q r none).toList := by
  rw [toList_comments_none]
  unfold comments
  simp

/-- Nothing in the comments on sizes looks like a declaration. -/
theorem after?_sizes (name : String) (q : Quoting) (r : Regex) (rest : List Char) :
    after? (opening name) ((comments q r none).toList ++ rest) = after? (opening name) rest := by
  have hdigits (n : Nat) : 's' ∉ Nat.toDigits 10 n := fun h =>
    absurd (isDigit_of_mem_toDigits h) (by decide)
  -- Cut at each `s`: none of them has a `t` behind it.
  have htext : (comments q r none).toList ++ rest =
      ("// Scratch depth: ".toList ++ Nat.toDigits 10 r.scratchDepth.toNat ++
          "\n// Capture".toList) ++ 's' ::
        ':' :: ((" ".toList ++ Nat.toDigits 10 r.captures.toNat ++ " (".toList ++
            Nat.toDigits 10 r.loopCaptures.length ++ " in".toList) ++ 's' ::
          'i' :: ("de loop".toList ++ 's' :: ')' :: '\n' :: rest)) := by
    simp [toList_comments_none]
  rw [htext, after?_append_s (by simp [hdigits]) (by decide), ← List.cons_append,
    after?_append_s (by simp [hdigits]) (by decide), ← List.cons_append,
    after?_append_s (by simp) (by decide)]
  show after? (opening name) ([')', '\n'] ++ rest) = _
  exact after?_append (by decide) rest

/-- The text of a declaration, with its comments. -/
theorem exists_renderWith (q : Quoting) (r : Regex) (h : isIdentifier name = true)
    (pattern : Option (List UInt8)) :
    ∃ text, renderWith q r name pattern = .ok text ∧
      text.toList = (comments q r pattern).toList ++
        ("pub ".toList ++ (opening name ++ ':' :: (arrayText r.toBytes).toList)) := by
  refine ⟨_, if_pos h, ?_⟩
  simp [opening_eq, arrayText]

/-- Behind the comments on sizes the declaration is found. -/
theorem declaration?_sizes (name : String) (q : Quoting) (r : Regex) (rest : List Char) :
    declaration? (opening name)
      ((comments q r none).toList ++ ("pub ".toList ++ (opening name ++ ':' :: rest))) =
        some rest := by
  rw [declaration?_eq (opening_ne_nil name), after?_sizes, after?_append (by simp),
    after?_append_self (opening_ne_nil name)]
  rfl

/-- What is read from a text without a comment on the pattern is the array. -/
theorem declared?_renderWith_none {text : String} (hname : isIdentifier name = true)
    (hsize : r.toBytes.length ≤ maxSize) (h : renderWith q r name none = .ok text) :
    declared? text name = some r.toBytes := by
  obtain ⟨_, htext, hlist⟩ := exists_renderWith q r hname none
  obtain rfl := Except.ok.inj (h.symm.trans htext)
  rw [declared?_eq, hlist, ← opening, declaration?_sizes, Option.bind_some,
    ← List.append_nil (arrayText _).toList, arrayAfter?_arrayText hsize]

/-- What is read from a text with a comment on the pattern is what is read from the comment alone,
if that has a declaration, and the array otherwise. -/
theorem declared?_renderWith_some {text : String} (hname : isIdentifier name = true)
    (hsize : r.toBytes.length ≤ maxSize) (h : renderWith q r name (some p) = .ok text) :
    declared? text name =
      if declaration? (opening name) (q.quote p).toList = none then some r.toBytes
      else declared? (q.quote p) name := by
  obtain ⟨_, htext, hlist⟩ := exists_renderWith q r hname (some p)
  obtain rfl := Except.ok.inj (h.symm.trans htext)
  obtain ⟨inside, hquoted⟩ := q.closes p
  generalize hplain : (comments q r none).toList ++
    ("pub ".toList ++ (opening name ++ ':' :: (arrayText r.toBytes).toList)) = plain
  have hlist' : text.toList = "// Pattern: ".toList ++ (inside ++ '"' :: '\n' :: plain) := by
    rw [hlist, toList_comments_some, hquoted, ← hplain]
    simp
  have hplain' : declaration? (opening name) plain = some (arrayText r.toBytes).toList := by
    rw [← hplain, declaration?_sizes]
  have hfeed : declaration? (opening name) ('\n' :: plain) = some (arrayText r.toBytes).toList := by
    rw [← List.singleton_append, declaration?_append (by decide), hplain']
  -- The quotation mark at the end of the comment is where the search is cut in two.
  rw [declared?_eq, declared?_eq, hlist', hquoted, ← opening, declaration?_append (by simp),
    declaration?_append_cons (opening_ne_nil name) (quote_not_mem_opening hname) rfl, hfeed]
  cases hfound : declaration? (opening name) (inside ++ ['"']) with
  | none =>
    rw [if_pos rfl, Option.map_none, Option.none_or, Option.bind_some,
      ← List.append_nil (arrayText _).toList, arrayAfter?_arrayText hsize]
  | some found =>
    have hmem : '"' ∈ found :=
      mem_of_declaration? (opening_ne_nil name) (by decide) hfound
    rw [if_neg (Option.some_ne_none found), Option.map_some, Option.some_or, Option.bind_some,
      Option.bind_some, arrayAfter?_append hmem]

end BoundedRegex.Snippet
