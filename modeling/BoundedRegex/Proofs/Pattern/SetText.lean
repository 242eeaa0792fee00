import BoundedRegex.Proofs.ByteSet.Members
import BoundedRegex.Proofs.Pattern.Escapes

/-!
# The text of a bracketed set

What stands between the brackets of a set, as a grammar, and where a text first fails to be that.
Three bytes have a meaning that depends on their place.

* A `^` is the mark of an inverted set at the start, and an ordinary byte elsewhere.
* A `]` is an ordinary byte as the first item (`ItemAt true`), and closes the set elsewhere.
* A `-` behind the first item of a member makes a range (`DashBetween`), unless it is followed by a
  `]` or by nothing.

`MembersText first w ms rest` says that the text `w` is the members `ms`, with `rest` behind it, and
`SetFault` what can be wrong behind members that are complete.  `members_outcome` and
`members_of_outcome` say that a set is read just as this grammar has it.
-/

namespace BoundedRegex

/-! ### Members -/

/-- Whether a byte is one that an item stands for. -/
def SetItem.Has : SetItem → UInt8 → Prop
  | .byte c, b => b = c
  | .named c negated, b => c.Has b ↔ negated = false

/-- A member of a bracketed set. -/
inductive SetMember where
  | item (i : SetItem)
  | range (lo hi : UInt8)

/-- Whether a byte is one that a member stands for. -/
def SetMember.Has : SetMember → UInt8 → Prop
  | .item i, b => i.Has b
  | .range lo hi, b => lo ≤ b ∧ b ≤ hi

/-- Adds what a member stands for. -/
def ByteSet.insertMember (s : ByteSet) : SetMember → ByteSet
  | .item i => s.insertItem i
  | .range lo hi => s.insertRange lo hi

namespace ByteSet

variable {s : ByteSet} {b : UInt8}

theorem bit_insertMember (s : ByteSet) (m : SetMember) :
    (s.insertMember m).bit b = true ↔ m.Has b ∨ s.bit b = true := by
  match m with
  | .item (.byte c) => exact bit_insert
  | .item (.named c negated) => exact bit_insertClass
  | .range lo hi => exact bit_insertRange

theorem inverted_insertMember (s : ByteSet) (m : SetMember) :
    (s.insertMember m).inverted = s.inverted := by
  match m with
  | .item (.byte c) | .item (.named c negated) | .range lo hi => rfl

theorem inverted_foldl_insertMember (ms : List SetMember) :
    (ms.foldl insertMember s).inverted = s.inverted := by
  induction ms generalizing s with
  | nil => rfl
  | cons m ms ih => rw [List.foldl_cons, ih, inverted_insertMember]

end ByteSet

/-! ### Their text -/

/-- The text of an item, where a closing bracket is one only if `first`. -/
structure ItemAt (first : Bool) (w : List UInt8) (item : SetItem) : Prop where
  text : ItemText w item
  first : w = [']'.toUInt8] → first = true

/-- The text starts with a dash between two items: what is behind it neither closes the set nor ends
the pattern. -/
def DashBetween (text : List UInt8) : Prop :=
  ∃ c more, text = '-'.toUInt8 :: c :: more ∧ c ≠ ']'.toUInt8

/-- The text of a member with another text behind it. -/
inductive MemberText (first : Bool) : List UInt8 → SetMember → List UInt8 → Prop where
  | item {w rest : List UInt8} {i : SetItem} (h : ItemAt first w i) (hdash : ¬DashBetween rest) :
      MemberText first w (.item i) rest
  | range {w w' rest : List UInt8} {lo hi : UInt8} (h : ItemAt first w (.byte lo))
      (h' : ItemAt false w' (.byte hi)) (hle : lo ≤ hi) :
      MemberText first (w ++ '-'.toUInt8 :: w') (.range lo hi) rest

/-- The text of some members with another text behind it. -/
inductive MembersText : Bool → List UInt8 → List SetMember → List UInt8 → Prop where
  | nil {first : Bool} {rest : List UInt8} : MembersText first [] [] rest
  | cons {first : Bool} {w w' rest : List UInt8} {m : SetMember} {ms : List SetMember}
      (h : MemberText first w m (w' ++ rest)) (h' : MembersText false w' ms rest) :
      MembersText first (w ++ w') (m :: ms) rest

/-- What is wrong with a text, at an offset, that should be another member or the closing bracket. -/
inductive SetFault (first : Bool) (pos : Nat) : List UInt8 → SyntaxError → Prop where
  | unterminated : SetFault first pos [] ⟨.unterminatedSet, 0⟩
  | escape {text : List UInt8} (h : ∀ w rest i, text = w ++ rest → ¬Escape w i) :
      SetFault first pos ('\\'.toUInt8 :: text) ⟨.unknownEscape, pos⟩
  | rangeEscape {w text : List UInt8} {i : SetItem} (h : ItemAt first w i)
      (h' : ∀ w' rest i', text = w' ++ rest → ¬Escape w' i') :
      SetFault first pos (w ++ '-'.toUInt8 :: '\\'.toUInt8 :: text)
        ⟨.unknownEscape, pos + w.length + 1⟩
  | range {w w' rest : List UInt8} {i i' : SetItem} (h : ItemAt first w i) (h' : ItemAt false w' i')
      (hrange : ∀ lo hi, i = .byte lo → i' = .byte hi → ¬lo ≤ hi) :
      SetFault first pos (w ++ '-'.toUInt8 :: (w' ++ rest)) ⟨.malformedRange, pos⟩

section

variable {first : Bool} {w w' rest : List UInt8}

/-- A dash before the closing bracket makes a range or not, whatever comes behind the bracket. -/
theorem DashBetween.before_close (h : DashBetween (w ++ ']'.toUInt8 :: rest)) (rest' : List UInt8) :
    DashBetween (w ++ ']'.toUInt8 :: rest') := by
  obtain ⟨c, more, heq, hc⟩ := h
  match w with
  | [] => exact absurd (List.cons.inj heq).1 (by decide)
  | [x] => exact absurd (List.cons.inj (List.cons.inj heq).2).1.symm hc
  | x :: y :: w =>
    cases heq
    exact ⟨c, w ++ ']'.toUInt8 :: rest', rfl, hc⟩

theorem MemberText.before_close {m : SetMember}
    (h : MemberText first w m (w' ++ ']'.toUInt8 :: rest)) (rest' : List UInt8) :
    MemberText first w m (w' ++ ']'.toUInt8 :: rest') := by
  cases h with
  | item h hdash => exact .item h fun hbetween => hdash (hbetween.before_close rest)
  | range h h' hle => exact .range h h' hle

/-- The text of the members of a set is that whatever comes behind the set. -/
theorem MembersText.before_close {ms : List SetMember}
    (h : MembersText first w ms (']'.toUInt8 :: rest)) (rest' : List UInt8) :
    MembersText first w ms (']'.toUInt8 :: rest') := by
  generalize htail : ']'.toUInt8 :: rest = tail at h
  induction h with
  | nil => exact .nil
  | cons h _ ih =>
    subst htail
    exact .cons (h.before_close rest') (ih rfl)

end

/-- What a text is read as, with members behind others, or none if `first`: members and the closing
bracket, or members and something wrong. -/
def MembersOutcome (pos : Nat) (first : Bool) (acc : ByteSet) (text : List UInt8) :
    Except SyntaxError (ByteSet × Nat) → Prop
  | .ok (s, stop) => ∃ w ms rest, text = w ++ ']'.toUInt8 :: rest ∧
      MembersText first w ms (']'.toUInt8 :: rest) ∧ (first && ms.isEmpty) = false ∧
      s = ms.foldl ByteSet.insertMember acc ∧ stop = pos + w.length + 1
  | .error e => ∃ w ms tail, text = w ++ tail ∧ MembersText first w ms tail ∧
      SetFault (first && ms.isEmpty) (pos + w.length) tail e

/-! ### Reading a member -/

namespace TokenKind

section

variable {b : UInt8} {rest : List UInt8} {pos n m : Nat} {first : Bool} {acc : ByteSet}

theorem members_nil : members pos first acc [] = .error ⟨.unterminatedSet, 0⟩ := by
  rw [members]

/-- A member that is an item. -/
theorem members_item {lo : SetItem} (hopen : ¬(b = ']'.toUInt8 ∧ (!first) = true))
    (hlo : item? b rest = some (lo, n))
    (hdash : ∀ dash c more, rest.drop n = dash :: c :: more →
      ¬(dash = '-'.toUInt8 ∧ c ≠ ']'.toUInt8)) :
    members pos first acc (b :: rest) =
      members (pos + n + 1) false (acc.insertItem lo) (rest.drop n) := by
  rw [members, if_neg hopen, hlo]
  dsimp only
  split
  · next dash c more heq => rw [if_neg (hdash dash c more heq), heq]
  · rfl

/-- An item, and a dash that neither closing bracket nor end of the text follows. -/
theorem members_dash {c : UInt8} {lo : SetItem} {more : List UInt8}
    (hopen : ¬(b = ']'.toUInt8 ∧ (!first) = true)) (hc : c ≠ ']'.toUInt8) :
    -- A `match` takes along the hypotheses in front of it, so this one comes behind.
    item? b rest = some (lo, n) → rest.drop n = '-'.toUInt8 :: c :: more →
    members pos first acc (b :: rest) =
      match item? c more with
      | none => .error ⟨.unknownEscape, pos + n + 2⟩
      | some (hi, m) =>
        match lo, hi with
        | .byte lo, .byte hi =>
          if lo ≤ hi then members (pos + n + m + 3) false (acc.insertRange lo hi) (more.drop m)
          else .error ⟨.malformedRange, pos⟩
        | _, _ => .error ⟨.malformedRange, pos⟩ := by
  intro hlo hdash
  rw [members, if_neg hopen, hlo]
  dsimp only
  split
  · next dash c' more' heq =>
    obtain ⟨rfl, rfl, rfl⟩ : '-'.toUInt8 = dash ∧ c = c' ∧ more = more' := by
      simpa using hdash.symm.trans heq
    exact if_pos ⟨rfl, hc⟩
  · next hne => exact absurd hdash (hne _ _ _)

/-- A member that is a range. -/
theorem members_range {c lo hi : UInt8} {more : List UInt8}
    (hopen : ¬(b = ']'.toUInt8 ∧ (!first) = true)) (hlo : item? b rest = some (.byte lo, n))
    (hdash : rest.drop n = '-'.toUInt8 :: c :: more) (hc : c ≠ ']'.toUInt8)
    (hhi : item? c more = some (.byte hi, m)) (hle : lo ≤ hi) :
    members pos first acc (b :: rest) =
      members (pos + n + m + 3) false (acc.insertRange lo hi) (more.drop m) := by
  rw [members_dash hopen hc hlo hdash, hhi]
  exact if_pos hle

end

variable {pos : Nat} {first : Bool} {acc : ByteSet} {w text rest : List UInt8} {i : SetItem}

/-- An item is read from its first byte, which does not close the set. -/
theorem item?_of_itemAt (h : ItemAt first w i) :
    ∃ b w', w = b :: w' ∧ ¬(b = ']'.toUInt8 ∧ (!first) = true) ∧
      ∀ rest, item? b (w' ++ rest) = some (i, w'.length) := by
  cases h.text with
  | @raw b hb =>
    refine ⟨b, [], rfl, ?_, item?_of_itemText h.text⟩
    rintro ⟨rfl, hfirst⟩
    rw [h.first rfl] at hfirst
    cases hfirst
  | escape hescape =>
    exact ⟨_, _, rfl, fun hclose => absurd hclose.1 (by decide), item?_of_itemText h.text⟩

/-- The item that is read from a byte that does not close the set. -/
theorem exists_itemAt {b : UInt8} {n : Nat} (hopen : ¬(b = ']'.toUInt8 ∧ (!first) = true))
    (h : item? b text = some (i, n)) :
    ∃ w rest, text = w ++ rest ∧ ItemAt first (b :: w) i ∧ n = w.length := by
  obtain ⟨w, rest, htext, hitem, hn⟩ := exists_itemText h
  refine ⟨w, rest, htext, ⟨hitem, fun hclose => ?_⟩, hn⟩
  cases hclose
  cases first with
  | true => rfl
  | false => exact absurd ⟨rfl, rfl⟩ hopen

theorem exists_itemAt_of_ne {c : UInt8} {n : Nat} (hc : c ≠ ']'.toUInt8)
    (h : item? c text = some (i, n)) :
    ∃ w rest, text = w ++ rest ∧ ItemAt false (c :: w) i ∧ n = w.length :=
  exists_itemAt (fun hclose => hc hclose.1) h

/-! ### Reading a set -/

/-- **A member is read as such**, and reading goes on behind it. -/
theorem members_of_memberText {m : SetMember} (h : MemberText first w m rest) :
    members pos first acc (w ++ rest) =
      members (pos + w.length) false (acc.insertMember m) rest := by
  cases h with
  | item h hdash =>
    obtain ⟨b, w, rfl, hopen, hitem⟩ := item?_of_itemAt h
    rw [List.cons_append, members_item hopen (hitem rest), List.drop_left, List.length_cons]
    · rfl
    · intro dash c more heq hrange
      rw [List.drop_left] at heq
      exact hdash ⟨c, more, hrange.1 ▸ heq, hrange.2⟩
  | @range w w' _ lo hi h h' hle =>
    obtain ⟨b, w, rfl, hopen, hitem⟩ := item?_of_itemAt h
    obtain ⟨c, w', rfl, hopen', hitem'⟩ := item?_of_itemAt h'
    have hc : c ≠ ']'.toUInt8 := fun hc => hopen' ⟨hc, rfl⟩
    have hdash : (w ++ '-'.toUInt8 :: c :: (w' ++ rest)).drop w.length =
        '-'.toUInt8 :: c :: (w' ++ rest) := List.drop_left
    have hpos : pos + (b :: w ++ '-'.toUInt8 :: c :: w').length =
        pos + w.length + w'.length + 3 := by
      simp only [List.length_append, List.length_cons]
      omega
    rw [List.append_assoc, List.cons_append, List.cons_append, List.cons_append,
      members_range hopen (hitem _) hdash hc (hitem' rest) hle, List.drop_left, hpos]
    rfl

/-- Some members are read as such. -/
theorem members_of_membersText {ms : List SetMember} (h : MembersText first w ms rest) :
    members pos first acc (w ++ rest) =
      members (pos + w.length) (first && ms.isEmpty) (ms.foldl ByteSet.insertMember acc) rest := by
  induction h generalizing pos acc with
  | nil => rw [List.isEmpty_nil, Bool.and_true]; rfl
  | cons h _ ih =>
    rw [List.append_assoc, members_of_memberText h, ih, List.length_append, Nat.add_assoc,
      List.isEmpty_cons, Bool.and_false, Bool.false_and, List.foldl_cons]

/-- What is wrong is the error that is given. -/
theorem members_of_fault {e : SyntaxError} (h : SetFault first pos text e) :
    members pos first acc text = .error e := by
  cases h with
  | unterminated => exact members_nil
  | escape h =>
    have hitem := item?_eq_none_iff.2 ⟨rfl, h⟩
    rw [members, if_neg (fun hclose => absurd hclose.1 (by decide)), hitem]
  | rangeEscape h h' =>
    obtain ⟨b, w, rfl, hopen, hitem⟩ := item?_of_itemAt h
    rw [List.cons_append, members_dash hopen (by decide) (hitem _) List.drop_left,
      item?_eq_none_iff.2 ⟨rfl, h'⟩]
    rfl
  | range h h' hrange =>
    obtain ⟨b, w, rfl, hopen, hitem⟩ := item?_of_itemAt h
    obtain ⟨c, w', rfl, hopen', hitem'⟩ := item?_of_itemAt h'
    rw [List.cons_append, List.cons_append,
      members_dash hopen (fun hc => hopen' ⟨hc, rfl⟩) (hitem _) List.drop_left, hitem']
    dsimp only
    split
    · exact if_neg (hrange _ _ rfl rfl)
    · rfl

/-- What a text is read as by the grammar is what is read. -/
theorem members_of_outcome {r : Except SyntaxError (ByteSet × Nat)}
    (h : MembersOutcome pos first acc text r) : members pos first acc text = r := by
  cases r with
  | ok r =>
    obtain ⟨s, stop⟩ := r
    obtain ⟨w, ms, rest, rfl, hmembers, hfirst, rfl, rfl⟩ := h
    rw [members_of_membersText hmembers, hfirst, members, if_pos ⟨rfl, rfl⟩]
  | error e =>
    obtain ⟨w, ms, tail, rfl, hmembers, hfault⟩ := h
    rw [members_of_membersText hmembers, members_of_fault hfault]

end TokenKind

namespace MembersOutcome

variable {pos : Nat} {first : Bool} {acc : ByteSet} {w text : List UInt8}
  {r : Except SyntaxError (ByteSet × Nat)}

/-- A member in front. -/
theorem cons {m : SetMember} (h : MemberText first w m text)
    (h' : MembersOutcome (pos + w.length) false (acc.insertMember m) text r) :
    MembersOutcome pos first acc (w ++ text) r := by
  cases r with
  | ok r =>
    obtain ⟨w', ms, rest, rfl, hmembers, -, hs, hstop⟩ := h'
    refine ⟨w ++ w', m :: ms, rest, (List.append_assoc ..).symm, .cons h hmembers, ?_, hs, ?_⟩
    · rw [List.isEmpty_cons, Bool.and_false]
    · rw [hstop, List.length_append, Nat.add_assoc pos]
  | error e =>
    obtain ⟨w', ms, tail, rfl, hmembers, hfault⟩ := h'
    refine ⟨w ++ w', m :: ms, tail, (List.append_assoc ..).symm, .cons h hmembers, ?_⟩
    rw [List.isEmpty_cons, Bool.and_false, List.length_append, ← Nat.add_assoc]
    exact hfault

/-- Something wrong at once. -/
theorem of_fault {e : SyntaxError} (h : SetFault first pos text e) :
    MembersOutcome pos first acc text (.error e) :=
  ⟨[], [], text, rfl, .nil, by rwa [List.isEmpty_nil, Bool.and_true]⟩

end MembersOutcome

/-- **What is read of a set is what it is by the grammar.** -/
theorem TokenKind.members_outcome (pos : Nat) (first : Bool) (acc : ByteSet) (text : List UInt8) :
    MembersOutcome pos first acc text (members pos first acc text) := by
  fun_induction members pos first acc text with
  | case1 => exact .of_fault .unterminated
  | case2 pos first acc b rest hclose =>
    obtain ⟨rfl, hfirst⟩ := hclose
    refine ⟨[], [], rest, rfl, .nil, ?_, rfl, rfl⟩
    rwa [List.isEmpty_nil, Bool.and_true, ← Bool.not_eq_true']
  | case3 pos first acc b rest hopen hnone =>
    obtain ⟨rfl, hescape⟩ := item?_eq_none_iff.1 hnone
    exact .of_fault (.escape hescape)
  | case4 pos first acc b rest hopen lo n hlo dash c more hdrop hdash hnone =>
    obtain ⟨w, rest, rfl, hitem, rfl⟩ := exists_itemAt hopen hlo
    rw [List.drop_left] at hdrop
    obtain ⟨rfl, hescape⟩ := item?_eq_none_iff.1 hnone
    rw [hdrop, hdash.1]
    exact .of_fault (.rangeEscape hitem hescape)
  | case5 pos first acc b rest hopen n dash c more hdrop hdash m lo hi hle hlo hhi ih =>
    obtain ⟨w, rest, rfl, hitem, rfl⟩ := exists_itemAt hopen hlo
    rw [List.drop_left] at hdrop
    obtain ⟨w', more, rfl, hitem', rfl⟩ := exists_itemAt_of_ne hdash.2 hhi
    rw [List.drop_left] at ih ⊢
    have hmember : MemberText first (b :: w ++ '-'.toUInt8 :: c :: w') (.range lo hi) more :=
      .range hitem hitem' hle
    have hpos : pos + w.length + w'.length + 3 =
        pos + (b :: w ++ '-'.toUInt8 :: c :: w').length := by simp; omega
    have htext : b :: (w ++ rest) = b :: w ++ '-'.toUInt8 :: c :: w' ++ more := by
      simp [hdrop, hdash.1]
    rw [hpos] at ih ⊢
    rw [htext]
    exact .cons hmember ih
  | case6 pos first acc b rest hopen n dash c more hdrop hdash m lo hi hle hlo hhi =>
    obtain ⟨w, rest, rfl, hitem, rfl⟩ := exists_itemAt hopen hlo
    obtain ⟨w', more, rfl, hitem', rfl⟩ := exists_itemAt_of_ne hdash.2 hhi
    rw [List.drop_left] at hdrop
    rw [hdrop, hdash.1]
    refine .of_fault (.range hitem hitem' fun lo' hi' hlo' hhi' => ?_)
    cases hlo'
    cases hhi'
    exact hle
  | case7 pos first acc b rest hopen lo n hlo dash c more hdrop hdash hi m hhi hbytes =>
    obtain ⟨w, rest, rfl, hitem, rfl⟩ := exists_itemAt hopen hlo
    obtain ⟨w', more, rfl, hitem', rfl⟩ := exists_itemAt_of_ne hdash.2 hhi
    rw [List.drop_left] at hdrop
    rw [hdrop, hdash.1]
    exact .of_fault (.range hitem hitem' fun lo' hi' hlo' hhi' => absurd hhi' (hbytes lo' hi' hlo'))
  | case8 pos first acc b rest hopen lo n hlo dash c more hdrop hdash ih =>
    obtain ⟨w, rest, rfl, hitem, rfl⟩ := exists_itemAt hopen hlo
    rw [List.drop_left] at hdrop
    subst hdrop
    refine .cons (.item hitem ?_) ih
    rintro ⟨c', more', heq, hc⟩
    cases heq
    exact hdash ⟨rfl, hc⟩
  | case9 pos first acc b rest hopen lo n hlo hshort ih =>
    obtain ⟨w, rest, rfl, hitem, rfl⟩ := exists_itemAt hopen hlo
    rw [List.drop_left] at ih hshort ⊢
    refine .cons (.item hitem ?_) ih
    rintro ⟨c, more, heq, -⟩
    exact hshort _ _ _ heq

/-- A set is read to its closing bracket, whatever comes behind that. -/
theorem TokenKind.members_append {pos stop : Nat} {first : Bool} {acc s : ByteSet}
    {text : List UInt8} (h : members pos first acc text = .ok (s, stop)) (q : List UInt8) :
    members pos first acc (text ++ q) = .ok (s, stop) ∧ pos < stop ∧
      stop ≤ pos + text.length := by
  have houtcome := members_outcome pos first acc text
  rw [h] at houtcome
  obtain ⟨w, ms, rest, rfl, hmembers, hfirst, hs, rfl⟩ := houtcome
  rw [List.append_assoc, List.cons_append, List.length_append, List.length_cons]
  refine ⟨members_of_outcome ?_, by omega⟩
  exact ⟨w, ms, rest ++ q, rfl, hmembers.before_close (rest ++ q), hfirst, hs, rfl⟩

end BoundedRegex
