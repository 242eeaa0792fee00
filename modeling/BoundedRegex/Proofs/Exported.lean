import BoundedRegex.Proofs.CaptureSlots
import BoundedRegex.Proofs.Stored

/-!
# Several compiled patterns in one file

Declarations of compiled patterns may be put into one file, one after another, and each is read
back by its name (`Snippet.read_exports`).  The name of one may be part of another, or part of what
a declaration is made of: the declaration of one name is never found in that of another.

* `Snippet.exports` — the text of such a file.
* `Snippet.declaration?_other` — the search for a name passes over the declaration of another.
* `Snippet.exists_declaration?_exports` — it finds the array of the name, wherever that is.
-/

namespace BoundedRegex.Snippet

open Text

/-- A compiled pattern that is put into a file under a name, behind a number of line feeds. -/
structure Export where
  feeds : Nat
  name : String
  regex : Regex

/-- The text of a file with compiled patterns, one after another and without their patterns. -/
def exports : List Export → Except LoadError String
  | [] => .ok ""
  | x :: more => do
    let text ← render x.regex x.name none
    let rest ← exports more
    .ok (String.ofList (List.replicate x.feeds '\n') ++ text ++ rest)

/-! ### Passing over a declaration -/

section

variable {name other : String}

theorem isBlank_of_startsIdentifier {c : Char} (h : startsIdentifier c = true) :
    isBlank c = false := by
  have hrange : (65 ≤ c.toNat ∧ c.toNat ≤ 90) ∨ (97 ≤ c.toNat ∧ c.toNat ≤ 122) ∨ c = '_' := by
    rcases Bool.or_eq_true_iff.1 h with hletter | hscore
    · rcases Bool.or_eq_true_iff.1 hletter with hupper | hlower
      · obtain ⟨hfrom, hto⟩ := of_decide_eq_true hupper
        exact Or.inl ⟨UInt32.le_iff_toNat_le.1 hfrom, UInt32.le_iff_toNat_le.1 hto⟩
      · obtain ⟨hfrom, hto⟩ := Bool.and_eq_true_iff.1 hlower
        exact Or.inr (Or.inl ⟨UInt32.le_iff_toNat_le.1 (of_decide_eq_true hfrom),
          UInt32.le_iff_toNat_le.1 (of_decide_eq_true hto)⟩)
    · exact Or.inr (Or.inr (of_decide_eq_true hscore))
  rcases hrange with hupper | hlower | rfl
  · simp only [isBlank, Bool.or_eq_false_iff, Bool.and_eq_false_iff, decide_eq_false_iff_not]
    omega
  · simp only [isBlank, Bool.or_eq_false_iff, Bool.and_eq_false_iff, decide_eq_false_iff_not]
    omega
  · rfl

/-- There are no blanks in a name. -/
theorem isBlank_of_mem_name (h : isIdentifier name = true) {c : Char} (hc : c ∈ name.toList) :
    isBlank c = false :=
  (mem_of_isIdentifier h hc).elim isBlank_of_startsIdentifier isBlank_of_isDigit

theorem colon_not_mem_name (h : isIdentifier name = true) : ':' ∉ name.toList := fun hc => by
  rcases mem_of_isIdentifier h hc with h | h
  · revert h; decide
  · revert h; decide

theorem colon_not_mem_opening (h : isIdentifier name = true) : ':' ∉ opening name := by
  simp [opening_eq, colon_not_mem_name h]

/-- A name that stands behind the last space of a text is one name only. -/
theorem name_unique (h : isIdentifier name = true) (h' : isIdentifier other = true)
    {before before' : List Char}
    (htext : before ++ ' ' :: name.toList = before' ++ ' ' :: other.toList) : name = other := by
  have hspace {name : String} (h : isIdentifier name = true) : ' ' ∉ name.toList.reverse :=
    fun hc => absurd (isBlank_of_mem_name h (List.mem_reverse.1 hc)) (by decide)
  have hreverse : name.toList.reverse ++ ' ' :: before.reverse =
      other.toList.reverse ++ ' ' :: before'.reverse := by
    simpa using congrArg List.reverse htext
  -- Read backwards, both names end at the first space.
  have hsplit := (splitOnce?_eq_some_iff.2 ⟨rfl, hspace h⟩).symm.trans
    (splitOnce?_eq_some_iff.2 ⟨hreverse, hspace h'⟩)
  injection hsplit with hsplit
  exact String.toList_inj.1 (List.reverse_inj.1 (Prod.mk.inj hsplit).1)

/-- A text in which a colon stands only at the end is cut at that colon alone. -/
theorem eq_of_append_colon {front before found : List Char} (hcolon : ':' ∉ front)
    (h : front ++ [':'] = before ++ ':' :: found) : front = before := by
  rcases List.eq_nil_or_concat' found with rfl | ⟨more, last, rfl⟩
  · exact List.append_cancel_right h
  · have hends : front ++ [':'] = (before ++ ':' :: more) ++ [last] := by simpa using h
    have hfront := (List.append_inj' hends rfl).1
    exact absurd (by simp [hfront]) hcolon

/-- Where a name is declared, no other is. -/
theorem declaration?_opening (h : isIdentifier name = true) (h' : isIdentifier other = true)
    (hne : name ≠ other) :
    declaration? (opening name) ("pub ".toList ++ opening other ++ [':']) = none := by
  rw [Option.eq_none_iff_forall_ne_some]
  intro found hfound
  obtain ⟨before, blanks, htext, hblanks⟩ := exists_of_declaration? (opening_ne_nil name) hfound
  have hfront := eq_of_append_colon (by simp [colon_not_mem_opening h']) htext
  -- The other name ends in no blank, so what is found is at the end of it.
  obtain rfl : blanks = [] := by
    rcases List.eq_nil_or_concat' blanks with hnil | ⟨more, blank, rfl⟩
    · exact hnil
    · obtain ⟨front, last, hother⟩ : ∃ front last, other.toList = front ++ [last] := by
        rcases List.eq_nil_or_concat' other.toList with hnil | ⟨front, last, hother⟩
        · rw [isIdentifier, hnil] at h'
          cases h'
        · exact ⟨front, last, hother⟩
      have hends : "pub static ".toList ++ front ++ [last] =
          before ++ opening name ++ more ++ [blank] := by
        simpa [opening_eq, hother] using hfront
      obtain rfl : last = blank := by simpa using (List.append_inj' hends rfl).2
      have hblank := isBlank_of_mem_name h' (c := last) (by simp [hother])
      rw [hblanks last (by simp)] at hblank
      cases hblank
  have hspaces : (before ++ "static".toList) ++ ' ' :: name.toList =
      "pub static".toList ++ ' ' :: other.toList := by
    simpa [opening_eq] using hfront.symm
  exact hne (name_unique h h' hspaces)

theorem s_not_mem_arrayText (bytes : List UInt8) : 's' ∉ (arrayText bytes).toList := by
  have hbytes : ∀ n : Fin 256, 's' ∉ (hexByte (.ofNat n)).toList := by decide +kernel
  have hbyte (b : UInt8) : 's' ∉ (hexByte b).toList := by
    simpa using hbytes ⟨b.toNat, b.toNat_lt⟩
  have hdigits : 's' ∉ Nat.toDigits 10 bytes.length := fun h =>
    absurd (isDigit_of_mem_toDigits h) (by decide)
  simpa [arrayText, hdigits] using not_mem_arrayLines hbyte (by decide) bytes

/-- **The search for a name passes over the declaration of another**, be the one a part of the
other or not. -/
theorem declaration?_other (h : isIdentifier name = true) (h' : isIdentifier other = true)
    (hne : name ≠ other) (q : Quoting) (r : Regex) (rest : List Char) :
    declaration? (opening name)
        ((comments q r none).toList ++ ("pub ".toList ++ (opening other ++
          ':' :: ((arrayText r.toBytes).toList ++ rest)))) =
      declaration? (opening name) rest := by
  rw [declaration?_congr (opening_ne_nil name) (after?_sizes name q r _), ← List.append_assoc,
    declaration?_append_cons (opening_ne_nil name) (colon_not_mem_opening h) rfl,
    declaration?_opening h h' hne, Option.map_none, Option.none_or,
    declaration?_append (s_not_mem_arrayText _)]

end

/-! ### Files -/

/-- What a file with one compiled pattern more is made of. -/
theorem exports_cons {x : Export} {more : List Export} {rest : String}
    (hname : isIdentifier x.name = true) (h : exports more = .ok rest) :
    ∃ text, exports (x :: more) = .ok text ∧
      text.toList = List.replicate x.feeds '\n' ++ ((comments quoting x.regex none).toList ++
        ("pub ".toList ++ (opening x.name ++
          ':' :: ((arrayText x.regex.toBytes).toList ++ rest.toList)))) := by
  obtain ⟨text, htext, hlist⟩ := exists_renderWith quoting x.regex hname none
  refine ⟨String.ofList (List.replicate x.feeds '\n') ++ text ++ rest, ?_, ?_⟩
  · rw [exports, render, htext, h]
    rfl
  · simp [hlist]

/-- **The search for a name in a file finds the array of that name**, whatever follows the file. -/
theorem exists_declaration?_exports {items : List Export}
    (hnames : ∀ x ∈ items, isIdentifier x.name = true)
    (hdistinct : (items.map Export.name).Nodup) :
    ∃ text, exports items = .ok text ∧ ∀ x ∈ items, ∀ after, ∃ rest,
      declaration? (opening x.name) (text.toList ++ after) =
        some ((arrayText x.regex.toBytes).toList ++ rest) := by
  induction items with
  | nil => exact ⟨"", rfl, nofun⟩
  | cons first more ih =>
    rw [List.map_cons, List.nodup_cons] at hdistinct
    have hfirst := hnames first List.mem_cons_self
    obtain ⟨rest, hrest, hfound⟩ :=
      ih (fun x hx => hnames x (List.mem_cons_of_mem _ hx)) hdistinct.2
    obtain ⟨text, htext, hlist⟩ := exports_cons hfirst hrest
    have hfeeds : 's' ∉ List.replicate first.feeds '\n' := by simp
    refine ⟨text, htext, fun x hx after => ?_⟩
    rw [hlist]
    simp only [List.append_assoc, List.cons_append]
    rw [declaration?_append hfeeds]
    rcases List.mem_cons.1 hx with rfl | hx
    · exact ⟨rest.toList ++ after, declaration?_sizes ..⟩
    · have hne : x.name ≠ first.name := fun heq => hdistinct.1 (heq ▸ List.mem_map_of_mem hx)
      rw [declaration?_other (hnames x (List.mem_cons_of_mem _ hx)) hfirst hne]
      exact hfound x hx after

/-- **All the compiled patterns in a file are read back**, each by its name: for any compiled
patterns under different names, with any line feeds in front of each, and whatever follows them in
the file. -/
theorem read_exports {items : List Export} (hobtained : ∀ x ∈ items, x.regex.Obtained)
    (hnames : ∀ x ∈ items, isIdentifier x.name = true)
    (hdistinct : (items.map Export.name).Nodup) :
    ∃ text, exports items = .ok text ∧ ∀ x ∈ items, ∀ after : String,
      read (text ++ after) x.name = .ok x.regex.toBytes := by
  obtain ⟨text, htext, hfound⟩ := exists_declaration?_exports hnames hdistinct
  refine ⟨text, htext, fun x hx after => (read_eq_ok_iff (hobtained x hx)).2 ?_⟩
  obtain ⟨rest, hrest⟩ := hfound x hx after.toList
  rw [declared?_eq, ← opening, String.toList_append, hrest, Option.bind_some,
    arrayAfter?_arrayText x.regex.length_toBytes_le]

/-- Names that are parts of one another, and of what a declaration is made of. -/
theorem read_exports_static :
    ∃ text,
      exports [⟨0, "static_A", .branching⟩, ⟨2, "A", .givingBack⟩, ⟨1, "static", .branching⟩] =
        .ok text ∧
      read text "A" = .ok Regex.givingBack.toBytes ∧
      read text "static" = .ok Regex.branching.toBytes := by
  let items : List Export :=
    [⟨0, "static_A", .branching⟩, ⟨2, "A", .givingBack⟩, ⟨1, "static", .branching⟩]
  have hbranching : Regex.branching.Obtained := .compiled Compiler.compile_branching
  have hgivingBack : Regex.givingBack.Obtained := .compiled Compiler.compile_givingBack
  have hobtained : ∀ x ∈ items, x.regex.Obtained := by simp [items, hbranching, hgivingBack]
  obtain ⟨text, htext, hread⟩ := read_exports hobtained (by decide) (by decide)
  refine ⟨text, htext, ?_, ?_⟩
  · simpa using hread ⟨2, "A", .givingBack⟩ (by simp [items]) ""
  · simpa using hread ⟨1, "static", .branching⟩ (by simp [items]) ""

end BoundedRegex.Snippet
