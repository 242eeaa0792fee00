import BoundedRegex.Text.Blank

/-!
# Cutting text

What trimming, splitting and searching give on a text that is put together from parts.  A character
that is no blank stops trimming, and one that is not in the text searched for keeps an occurrence
to one side of it (`after?_append_cons`).
-/

namespace BoundedRegex.Text

variable {c d : Char} {before text rest : List Char}

/-! ### Trimming -/

theorem trimStart_cons_of_blank (h : isBlank c = true) : trimStart (c :: text) = trimStart text :=
  List.dropWhile_cons_of_pos h

theorem trimStart_cons_of_not_blank (h : isBlank c = false) : trimStart (c :: text) = c :: text :=
  List.dropWhile_cons_of_neg (by simp [h])

/-- A character that is no blank stops trimming, so that nothing behind it is read. -/
theorem trimStart_append (h : isBlank c = false) (hc : c ∈ before) :
    trimStart (before ++ rest) = trimStart before ++ rest := by
  induction before with
  | nil => cases hc
  | cons d before ih =>
    cases hd : isBlank d with
    | true =>
      have hmem : c ∈ before :=
        (List.mem_cons.1 hc).resolve_left fun heq => by rw [heq, hd] at h; cases h
      rw [List.cons_append, trimStart_cons_of_blank hd, trimStart_cons_of_blank hd, ih hmem]
    | false =>
      rw [List.cons_append, trimStart_cons_of_not_blank hd, trimStart_cons_of_not_blank hd,
        List.cons_append]

theorem mem_trimStart (h : isBlank c = false) : c ∈ trimStart text ↔ c ∈ text := by
  induction text with
  | nil => rfl
  | cons d text ih =>
    cases hd : isBlank d with
    | true =>
      have hne : c ≠ d := fun heq => by rw [heq, hd] at h; cases h
      rw [trimStart_cons_of_blank hd, ih, List.mem_cons, or_iff_right hne]
    | false => rw [trimStart_cons_of_not_blank hd]

theorem mem_trim (h : isBlank c = false) : c ∈ trim text ↔ c ∈ text := by
  rw [trim, List.mem_reverse, mem_trimStart h, List.mem_reverse, mem_trimStart h]

theorem trim_cons_of_blank (h : isBlank c = true) : trim (c :: text) = trim text := by
  rw [trim, trimStart_cons_of_blank h, ← trim]

/-- A text that starts and ends with no blank is trimmed. -/
theorem trim_eq_self (hstart : trimStart text = text)
    (hstop : trimStart text.reverse = text.reverse) : trim text = text := by
  rw [trim, hstart, hstop, List.reverse_reverse]

theorem trimStart_eq_self (h : ∀ c ∈ text, isBlank c = false) : trimStart text = text := by
  cases text with
  | nil => rfl
  | cons c text => exact trimStart_cons_of_not_blank (h c List.mem_cons_self)

/-! ### Splitting -/

theorem splitOnce?_eq_some_iff :
    splitOnce? c text = some (before, rest) ↔ text = before ++ c :: rest ∧ c ∉ before := by
  induction text generalizing before with
  | nil => simp [splitOnce?]
  | cons d text ih =>
    rw [splitOnce?]
    by_cases hd : d = c
    · subst hd
      rw [if_pos rfl]
      constructor
      · rintro ⟨⟩
        exact ⟨rfl, List.not_mem_nil⟩
      · rintro ⟨htext, hmem⟩
        cases before with
        | nil => cases htext; rfl
        | cons e before => cases htext; exact absurd List.mem_cons_self hmem
    · rw [if_neg hd, Option.map_eq_some_iff]
      constructor
      · rintro ⟨⟨before', rest'⟩, hsplit, hpair⟩
        cases hpair
        obtain ⟨rfl, hmem⟩ := ih.1 hsplit
        exact ⟨rfl, fun h => (List.mem_cons.1 h).elim (fun heq => hd heq.symm) hmem⟩
      · rintro ⟨htext, hmem⟩
        cases before with
        | nil => cases htext; exact absurd rfl hd
        | cons e before =>
          cases htext
          exact ⟨(before, rest), ih.2 ⟨rfl, fun h => hmem (List.mem_cons_of_mem _ h)⟩, rfl⟩

theorem splitOnce?_eq_none_iff : splitOnce? c text = none ↔ c ∉ text := by
  induction text with
  | nil => simp [splitOnce?]
  | cons d text ih =>
    rw [splitOnce?, List.mem_cons, not_or]
    by_cases hd : d = c
    · simp [hd]
    · rw [if_neg hd, Option.map_eq_none_iff, ih, and_iff_right fun heq => hd heq.symm]

/-- What is split is split at the same place when more text follows. -/
theorem splitOnce?_append {after : List Char} (h : splitOnce? c text = some (before, after)) :
    splitOnce? c (text ++ rest) = some (before, after ++ rest) := by
  obtain ⟨rfl, hmem⟩ := splitOnce?_eq_some_iff.1 h
  exact splitOnce?_eq_some_iff.2 ⟨by simp, hmem⟩

/-- What is not split is in the first part, if it is split when more text follows. -/
theorem prefix_of_splitOnce?_append {after : List Char} (hc : c ∉ text)
    (h : splitOnce? c (text ++ rest) = some (before, after)) : text <+: before := by
  obtain ⟨htext, -⟩ := splitOnce?_eq_some_iff.1 h
  rcases List.append_eq_append_iff.1 htext with ⟨more, rfl, -⟩ | ⟨more, rfl, hmore⟩
  · exact List.prefix_append ..
  · cases more with
    | nil => simp
    | cons d more => cases hmore; exact absurd (by simp) hc

theorem pieces_append_cons (h : c ∉ before) :
    pieces c (before ++ c :: rest) = before :: pieces c rest := by
  induction before with
  | nil => rw [List.nil_append, pieces, if_pos rfl]
  | cons d before ih =>
    obtain ⟨hd, hbefore⟩ := not_or.1 (fun hmem => h (List.mem_cons.2 hmem))
    rw [List.cons_append, pieces, if_neg (fun heq => hd heq.symm), ih hbefore]

/-- A character that does not divide a text is in its first piece. -/
theorem exists_pieces_cons (h : d ≠ c) (text : List Char) :
    ∃ piece more, pieces c text = piece :: more ∧ pieces c (d :: text) = (d :: piece) :: more := by
  rw [pieces, if_neg h]
  cases hp : pieces c text with
  | cons piece more => exact ⟨piece, more, rfl, rfl⟩
  | nil =>
    cases text with
    | nil => cases hp
    | cons e text =>
      rw [pieces] at hp
      split at hp
      · cases hp
      · split at hp <;> cases hp

/-- The characters of a text that do not divide it are in its pieces. -/
theorem exists_mem_pieces (h : d ≠ c) (hd : d ∈ text) : ∃ piece ∈ pieces c text, d ∈ piece := by
  induction text with
  | nil => cases hd
  | cons e text ih =>
    by_cases he : e = c
    · obtain ⟨piece, hpiece, hmem⟩ := ih ((List.mem_cons.1 hd).resolve_left (he ▸ h))
      rw [pieces, if_pos he]
      exact ⟨piece, List.mem_cons_of_mem _ hpiece, hmem⟩
    · obtain ⟨first, more, hpieces, hcons⟩ := exists_pieces_cons he text
      rw [hcons]
      rcases List.mem_cons.1 hd with rfl | hd
      · exact ⟨_, List.mem_cons_self, List.mem_cons_self⟩
      · obtain ⟨piece, hpiece, hmem⟩ := ih hd
        rw [hpieces] at hpiece
        rcases List.mem_cons.1 hpiece with rfl | hpiece
        · exact ⟨_, List.mem_cons_self, List.mem_cons_of_mem _ hmem⟩
        · exact ⟨piece, List.mem_cons_of_mem _ hpiece, hmem⟩

/-! ### Searching -/

section

variable {needle : List Char}

theorem after?_nil (h : needle ≠ []) : after? needle [] = none :=
  if_neg h

theorem after?_append_self (h : needle ≠ []) : after? needle (needle ++ rest) = some rest := by
  obtain ⟨c, needle, rfl⟩ := List.exists_cons_of_ne_nil h
  have hstart : (c :: needle).isPrefixOf (c :: (needle ++ rest)) = true :=
    List.isPrefixOf_iff_prefix.2 (List.prefix_append (c :: needle) rest)
  rw [List.cons_append, after?, if_pos hstart, ← List.cons_append, List.drop_left]

theorem exists_of_after? (h : after? needle text = some rest) :
    ∃ before, text = before ++ needle ++ rest := by
  induction text with
  | nil =>
    rw [after?] at h
    split at h
    · next hnil => cases h; exact ⟨[], by simp [hnil]⟩
    · cases h
  | cons c text ih =>
    rw [after?] at h
    split at h
    · next hstart =>
      obtain ⟨tail, htail⟩ := List.isPrefixOf_iff_prefix.1 hstart
      cases h
      exact ⟨[], by rw [← htail, List.drop_left]; rfl⟩
    · obtain ⟨before, rfl⟩ := ih h
      exact ⟨c :: before, rfl⟩

theorem length_lt_of_after? (hne : needle ≠ []) (h : after? needle text = some rest) :
    rest.length < text.length := by
  obtain ⟨before, rfl⟩ := exists_of_after? h
  have hpos := List.length_pos_iff.2 hne
  simp only [List.length_append]
  omega

theorem after?_cons_of_head_ne (h : d ≠ c) :
    after? (c :: needle) (d :: rest) = after? (c :: needle) rest := by
  rw [after?, if_neg (by simp [h.symm])]

theorem after?_cons_of_second_ne {c₂ d₂ : Char} (h : d₂ ≠ c₂) :
    after? (c :: c₂ :: needle) (d :: d₂ :: rest) = after? (c :: c₂ :: needle) (d₂ :: rest) := by
  rw [after?, if_neg (by simp [h.symm])]

/-- Nothing starts among characters other than the first one that is searched for. -/
theorem after?_append_of_not_mem (h : c ∉ before) :
    after? (c :: needle) (before ++ rest) = after? (c :: needle) rest := by
  induction before with
  | nil => rfl
  | cons d before ih =>
    obtain ⟨hd, hbefore⟩ := not_or.1 (fun hmem => h (List.mem_cons.2 hmem))
    rw [List.cons_append, after?_cons_of_head_ne fun heq => hd heq.symm, ih hbefore]

/-- An occurrence does not reach over a character that is not in it. -/
theorem prefix_append_cons_iff (hc : c ∉ needle) :
    needle <+: before ++ c :: rest ↔ needle <+: before := by
  refine ⟨fun h => ?_, fun h => h.trans (List.prefix_append ..)⟩
  have hstart : before ++ [c] <+: before ++ c :: rest := ⟨rest, by simp⟩
  rcases List.prefix_or_prefix_of_prefix h hstart with h | h
  · rcases List.prefix_concat_iff.1 h with rfl | h
    · exact absurd (List.mem_append_right _ List.mem_cons_self) hc
    · exact h
  · exact absurd (h.subset (List.mem_append_right _ List.mem_cons_self)) hc

/-- A text with a character that is not searched for is searched on either side of it. -/
theorem after?_append_cons (hne : needle ≠ []) (hc : c ∉ needle) :
    after? needle (before ++ c :: rest) =
      ((after? needle before).map (· ++ c :: rest)).or (after? needle rest) := by
  induction before with
  | nil =>
    obtain ⟨e, needle, rfl⟩ := List.exists_cons_of_ne_nil hne
    have hce : c ≠ e := fun heq => hc (heq ▸ List.mem_cons_self)
    rw [List.nil_append, after?_cons_of_head_ne hce, after?_nil hne, Option.map_none, Option.none_or]
  | cons d before ih =>
    rw [List.cons_append, after?, after?]
    have hiff :
        needle.isPrefixOf (d :: (before ++ c :: rest)) = needle.isPrefixOf (d :: before) := by
      rw [Bool.eq_iff_iff, List.isPrefixOf_iff_prefix, List.isPrefixOf_iff_prefix,
        ← List.cons_append, prefix_append_cons_iff hc]
    rw [hiff]
    split
    · next hstart =>
      have hle := (List.isPrefixOf_iff_prefix.1 hstart).length_le
      rw [← List.cons_append, List.drop_append_of_le_length hle, Option.map_some, Option.some_or]
    · exact ih

end

end BoundedRegex.Text
