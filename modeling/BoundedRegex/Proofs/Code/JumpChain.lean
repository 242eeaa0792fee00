import BoundedRegex.Proofs.Code.Buffer

/-!
# Chains of pending jumps

Jumps to a place not yet known are linked through their offsets, which are overwritten when the
place is known.  `Pending n b₀ js b` says what may be done to a buffer between the jumps of a chain:
code is written behind all of it, or inserted behind the last jump.  Whatever else is done, the
jumps stay linked (`Pending.linked`), so patching follows the chain from jump to jump and ends at
the first (`Linked.patching`), and touches nothing else (`CodeBuffer.patchJumps_chain`).  Chains lie
within each other: all that is done from one place on leaves a chain alone that is pending in front
of it (`Pending.around`).

The jumps behind the alternatives of a level of the compiler are such a chain when they are patched;
that is shown of all that the compiler does, token by token, in `Emission.closeLevel_pending`.
-/

namespace BoundedRegex

namespace CodeBuffer

variable {b b' : CodeBuffer} {i : Instr} {location j k : Nat} {o : Int16}

/-! ### What is left alone -/

theorem location_emit (h : b.emit i = some b') :
    b'.location = b.location + i.encode.length := by
  rw [location_eq, location_eq, emit_code h, List.length_append]

theorem getElem?_emit (h : b.emit i = some b') (hk : k < b.location) :
    b'.code[k]? = b.code[k]? := by
  rw [location_eq] at hk
  rw [← Array.getElem?_toList, emit_code h, List.getElem?_append_left hk, Array.getElem?_toList]

/-- What is inserted moves only what stands behind it. -/
theorem insert_code_take (h : b.insert location i = some b') (hle : location ≤ b.location) :
    b'.code.toList = b.code.toList.take location ++ (i.encode ++ b.code.toList.drop location) := by
  rw [location_eq] at hle
  exact insert_code (List.take_append_drop ..).symm (List.length_take_of_le hle).symm h

theorem location_insert (h : b.insert location i = some b') (hle : location ≤ b.location) :
    b'.location = b.location + i.encode.length := by
  rw [b'.location_eq, insert_code_take h hle, List.length_append, List.length_append,
    List.length_take, List.length_drop, ← location_eq]
  omega

theorem getElem?_insert (h : b.insert location i = some b') (hle : location ≤ b.location)
    (hk : k < location) : b'.code[k]? = b.code[k]? := by
  have hlength : k < (b.code.toList.take location).length := by
    rw [List.length_take, ← location_eq]
    omega
  rw [← Array.getElem?_toList, insert_code_take h hle, List.getElem?_append_left hlength,
    List.getElem?_take_of_lt hk, Array.getElem?_toList]

theorem getElem?_setOffset (h : k ≠ location + 2) (h' : k ≠ location + 3) :
    (b.setOffset location o).code[k]? = b.code[k]? := by
  simp [setOffset, h.symm, h'.symm]

theorem location_setOffset : (b.setOffset location o).location = b.location :=
  size_setOffset ..

/-- The offset of an instruction depends on its own bytes. -/
theorem offsetAt_congr (h : ∀ k, j ≤ k → k < j + 4 → b'.code[k]? = b.code[k]?) :
    b'.offsetAt j = b.offsetAt j := by
  rw [offsetAt, offsetAt, Array.getD_eq_getD_getElem?, Array.getD_eq_getD_getElem?,
    Array.getD_eq_getD_getElem?, Array.getD_eq_getD_getElem?, h (j + 2) (by omega) (by omega),
    h (j + 3) (by omega) (by omega)]

theorem offsetAt_setOffset_of_apart (h : j + 4 ≤ location ∨ location + 4 ≤ j) :
    (b.setOffset location o).offsetAt j = b.offsetAt j :=
  offsetAt_congr fun _ _ _ => getElem?_setOffset (by omega) (by omega)

theorem offsetAt_setOffset (h : location + 4 ≤ b.location) :
    (b.setOffset location o).offsetAt location = o := by
  obtain ⟨lo, hi, hbytes, hread⟩ := Instr.offsetBytes_eq o
  have hsize : location + 4 ≤ b.code.size := h
  simp only [offsetAt, setOffset, hbytes, Array.getD_eq_getD_getElem?]
  rw [Array.getElem?_setIfInBounds_ne (by omega),
    Array.getElem?_setIfInBounds_self_of_lt (by omega),
    Array.getElem?_setIfInBounds_self_of_lt (by simp; omega)]
  exact hread

/-- A jump that is written holds its link. -/
theorem offsetAt_emitJump {previous : Option Nat} (h : b.emitJump previous = some b') :
    b'.offsetAt b.location = previous.elim 0 (fun p => Int16.ofNat (b.location - p)) ∧
      b'.location = b.location + 4 := by
  have hcode := emitJump_code h
  have hjump (l : Int16) :
      (Instr.jump l).encode = escapeByte :: 0x02 :: Instr.offsetBytes l ++ [] :=
    (List.append_nil _).symm
  constructor
  · rw [hjump] at hcode
    exact offsetAt_eq hcode b.location_eq
  · rw [location_eq, hcode, List.length_append, ← location_eq]
    rfl

/-! ### Chains -/

/-- Jumps, the newest first, of which each holds the distance to the one before it, and the first
zero. -/
inductive Linked (b : CodeBuffer) : List Nat → Prop where
  | nil : Linked b []
  | cons {j : Nat} {js : List Nat}
      (hlink : b.offsetAt j = js.head?.elim 0 fun k => Int16.ofNat (j - k))
      (hapart : ∀ k ∈ js, k + 4 ≤ j) (hend : j + 4 ≤ b.location) (h : Linked b js) :
      Linked b (j :: js)

/-- From the buffer `b₀` on, code has been written behind all of it or from the place `n` on, and
the jumps `js`, the newest first, have been put in without being set.  Instructions are inserted
behind the jumps only, and no other offset is set in place of one of theirs. -/
inductive Pending (n : Nat) (b₀ : CodeBuffer) : List Nat → CodeBuffer → Prop where
  | start (h : n ≤ b₀.location) : Pending n b₀ [] b₀
  | emit {js : List Nat} {b b' : CodeBuffer} {i : Instr} (h : Pending n b₀ js b)
      (hemit : b.emit i = some b') : Pending n b₀ js b'
  | insert {js : List Nat} {b b' : CodeBuffer} {location : Nat} {i : Instr} (h : Pending n b₀ js b)
      (hn : n ≤ location) (hbehind : ∀ j ∈ js, j + 4 ≤ location) (hle : location ≤ b.location)
      (hinsert : b.insert location i = some b') : Pending n b₀ js b'
  | setOffset {js : List Nat} {b : CodeBuffer} {location : Nat} (h : Pending n b₀ js b)
      (hn : n ≤ location) (hapart : ∀ j ∈ js, j + 4 ≤ location ∨ location + 4 ≤ j) (o : Int16) :
      Pending n b₀ js (b.setOffset location o)
  | jump {js : List Nat} {b b' : CodeBuffer} (h : Pending n b₀ js b)
      (hjump : b.emitJump js.head? = some b') : Pending n b₀ (b.location :: js) b'

variable {js : List Nat}

namespace Linked

theorem end_le (h : Linked b js) (hj : j ∈ js) : j + 4 ≤ b.location := by
  induction h with
  | nil => cases hj
  | cons _ _ hend _ ih =>
    cases hj with
    | head => exact hend
    | tail _ hj => exact ih hj

/-- A chain stays one if its bytes stay what they are. -/
theorem congr (h : Linked b js) (hle : b.location ≤ b'.location)
    (hoffset : ∀ j ∈ js, b'.offsetAt j = b.offsetAt j) : Linked b' js := by
  induction h with
  | nil => exact .nil
  | cons hlink hapart hend _ ih =>
    exact .cons ((hoffset _ List.mem_cons_self).trans hlink) hapart (Nat.le_trans hend hle)
      (ih fun j hj => hoffset j (List.mem_cons_of_mem _ hj))

end Linked

namespace Pending

variable {n : Nat} {b₀ : CodeBuffer}

/-- **The jumps of a chain stay linked**, whatever is written in between. -/
theorem linked (h : Pending n b₀ js b) : Linked b js := by
  induction h with
  | start => exact .nil
  | emit _ hemit ih =>
    have hlocation := location_emit hemit
    refine ih.congr (by omega) fun j hj => offsetAt_congr fun k _ hk => ?_
    exact getElem?_emit hemit (Nat.lt_of_lt_of_le hk (ih.end_le hj))
  | insert _ _ hbehind hle hinsert ih =>
    have hlocation := location_insert hinsert hle
    refine ih.congr (by omega) fun j hj => offsetAt_congr fun k _ hk => ?_
    exact getElem?_insert hinsert hle (Nat.lt_of_lt_of_le hk (hbehind j hj))
  | setOffset _ _ hapart o ih =>
    exact ih.congr location_setOffset.ge fun j hj => offsetAt_setOffset_of_apart (hapart j hj)
  | jump _ hjump ih =>
    obtain ⟨hlink, hlocation⟩ := offsetAt_emitJump hjump
    refine .cons hlink (fun k hk => ih.end_le hk) hlocation.ge (ih.congr (by omega) fun j hj => ?_)
    exact offsetAt_congr fun k _ hk =>
      getElem?_emit hjump (Nat.lt_of_lt_of_le hk (ih.end_le hj))

/-- Code is only added. -/
theorem location_le (h : Pending n b₀ js b) : n ≤ b₀.location ∧ b₀.location ≤ b.location := by
  induction h with
  | start h => exact ⟨h, Nat.le_refl _⟩
  | emit _ hemit ih => exact ⟨ih.1, Nat.le_trans ih.2 (location_emit hemit ▸ Nat.le_add_right ..)⟩
  | insert _ _ _ hle hinsert ih =>
    exact ⟨ih.1, Nat.le_trans ih.2 (location_insert hinsert hle ▸ Nat.le_add_right ..)⟩
  | setOffset _ _ _ _ ih => exact ⟨ih.1, location_setOffset.symm ▸ ih.2⟩
  | jump _ hjump ih => exact ⟨ih.1, Nat.le_trans ih.2 (location_emit hjump ▸ Nat.le_add_right ..)⟩

/-- The jumps are behind the place where the chain began. -/
theorem floor_le (h : Pending n b₀ js b) : ∀ j ∈ js, n ≤ j := by
  induction h with
  | start => exact nofun
  | emit _ _ ih | insert _ _ _ _ _ ih | setOffset _ _ _ _ ih => exact ih
  | jump h _ ih =>
    intro j hj
    cases hj with
    | head => exact Nat.le_trans h.location_le.1 h.location_le.2
    | tail _ hj => exact ih j hj

/-- **A chain within another leaves that alone**: what is done from a place behind the jumps of a
chain is done with this chain pending. -/
theorem around {n' : Nat} {b₁ : CodeBuffer} {outer : List Nat} (h : Pending n b₀ js b)
    (houter : Pending n' b₁ outer b₀) (hn : n' ≤ n) (hbehind : ∀ j ∈ outer, j + 4 ≤ n) :
    Pending n' b₁ outer b := by
  induction h with
  | start => exact houter
  | emit _ hemit ih => exact ih.emit hemit
  | insert _ hloc _ hle hinsert ih =>
    exact ih.insert (Nat.le_trans hn hloc) (fun j hj => Nat.le_trans (hbehind j hj) hloc) hle
      hinsert
  | setOffset _ hloc _ o ih =>
    exact ih.setOffset (Nat.le_trans hn hloc)
      (fun j hj => Or.inl (Nat.le_trans (hbehind j hj) hloc)) o
  | jump _ hjump ih => exact ih.emit hjump

/-- An operand behind the jumps is made the body of a loop. -/
theorem makeLoop {start : Nat} {q : Quantifier} {singleByte keepsFrames : Bool}
    (h : Pending n b₀ js b) (hn : n ≤ start) (hbehind : ∀ j ∈ js, j + 4 ≤ start)
    (hle : start ≤ b.location) (hloop : b.makeLoop start q singleByte keepsFrames = some b') :
    Pending n b₀ js b' := by
  obtain ⟨b₁, hinsert, hloop⟩ := Option.bind_eq_some_iff.1 hloop
  have h := h.insert hn hbehind hle hinsert
  split at hloop
  · cases hloop
    exact h
  · exact h.emit hloop

/-- An alternative behind the jumps is ended: a split is put in front of it, another jump behind. -/
theorem alternative {start : Nat} {b₁ b₂ : CodeBuffer} (h : Pending n b₀ js b) (hn : n ≤ start)
    (hbehind : ∀ j ∈ js, j + 4 ≤ start) (hle : start ≤ b.location)
    (hinsert : b.insert start (.split 0) = some b₁) (hjump : b₁.emitJump js.head? = some b₂)
    (o : Int16) : Pending n b₀ (b₁.location :: js) (b₂.setOffset start o) := by
  refine ((h.insert hn hbehind hle hinsert).jump hjump).setOffset hn (fun j hj => ?_) o
  cases hj with
  | head =>
    have hlocation : b₁.location = b.location + 4 := location_insert hinsert hle
    exact Or.inr (by omega)
  | tail _ hj => exact Or.inl (hbehind j hj)

end Pending

/-! ### Patching -/

/-- The loop that patches a chain goes through some jumps.  At each it reads the link, makes the
jump go to the target, and ends if the link was zero; otherwise it goes on as far in front as the
link says. -/
inductive Patching (target : Nat) : List Nat → CodeBuffer → CodeBuffer → Prop where
  | last {j : Nat} {b : CodeBuffer} (hlink : b.offsetAt j = 0) :
      Patching target [j] b (b.setOffset j (.ofNat (target - j)))
  | next {j k : Nat} {js : List Nat} {b b' : CodeBuffer} (hlink : b.offsetAt j ≠ 0)
      (hk : (k : Int) = j - (b.offsetAt j).toInt)
      (h : Patching target (k :: js) (b.setOffset j (.ofNat (target - j))) b') :
      Patching target (j :: k :: js) b b'

/-- **Patching goes through the jumps of a chain**, each once, and ends. -/
theorem Linked.patching (h : Linked b (j :: js)) (target : Nat) :
    Patching target (j :: js) b (b.patchJumps j target) := by
  induction js generalizing b j with
  | nil =>
    cases h with
    | cons hlink =>
      have hlink : b.offsetAt j = 0 := hlink
      rw [patchJumps, hlink]
      exact .last hlink
  | cons k js ih =>
    cases h with
    | cons hlink hapart hend h =>
      have hlink : b.offsetAt j = Int16.ofNat (j - k) := hlink
      have hk := hapart k List.mem_cons_self
      -- The distance fits into an offset, and is not zero as the jumps do not overlap.
      have hcode : j + 4 ≤ maxCodeLength := Nat.le_trans hend b.code_le
      have hint : (b.offsetAt j).toInt = (j - k : Nat) := by
        rw [hlink]
        exact toInt_ofNat (by omega)
      have hne : b.offsetAt j ≠ 0 := by
        intro hzero
        rw [hzero] at hint
        have hint : (0 : Int) = (j - k : Nat) := hint
        omega
      have hrest : Linked (b.setOffset j (.ofNat (target - j))) (k :: js) :=
        h.congr location_setOffset.ge fun l hl => offsetAt_setOffset_of_apart (.inl (hapart l hl))
      have hback : j - (b.offsetAt j).toInt.toNat = k := by omega
      rw [patchJumps, if_pos ⟨by omega, by omega⟩, hback]
      exact .next hne (by omega) (ih hrest)

namespace Patching

variable {target : Nat}

/-- Nothing changes but the offsets of the jumps. -/
theorem frame (h : Patching target js b b') :
    (∀ i, (∀ j ∈ js, i ≠ j + 2 ∧ i ≠ j + 3) → b'.code[i]? = b.code[i]?) ∧
      b'.location = b.location ∧ b'.room = b.room ∧ b'.size = b.size := by
  induction h with
  | last =>
    refine ⟨fun i hi => ?_, location_setOffset, rfl, rfl⟩
    obtain ⟨hlo, hhi⟩ := hi _ List.mem_cons_self
    exact getElem?_setOffset hlo hhi
  | next _ _ _ ih =>
    obtain ⟨hcode, hlocation, hroom, hsize⟩ := ih
    refine ⟨fun i hi => ?_, hlocation.trans location_setOffset, hroom, hsize⟩
    obtain ⟨hlo, hhi⟩ := hi _ List.mem_cons_self
    rw [hcode i fun j hj => hi j (List.mem_cons_of_mem _ hj)]
    exact getElem?_setOffset hlo hhi

/-- Every jump is made to go to the target. -/
theorem offsetAt_eq_target (h : Patching target js b b') (hapart : js.Pairwise fun j k => k + 4 ≤ j)
    (hend : ∀ j ∈ js, j + 4 ≤ b.location) : ∀ j ∈ js, b'.offsetAt j = Int16.ofNat (target - j) := by
  induction h with
  | last =>
    intro j hj
    obtain rfl := List.mem_singleton.1 hj
    exact offsetAt_setOffset (hend _ hj)
  | @next j k js b b' _ _ h ih =>
    intro l hl
    obtain ⟨hfirst, hrest⟩ := List.pairwise_cons.1 hapart
    cases hl with
    | head =>
      have hframe : b'.offsetAt j = (b.setOffset j (.ofNat (target - j))).offsetAt j :=
        offsetAt_congr fun i _ hi => h.frame.1 i fun m hm => by
          have := hfirst m hm
          omega
      rw [hframe]
      exact offsetAt_setOffset (hend _ List.mem_cons_self)
    | tail _ hl =>
      refine ih hrest (fun m hm => ?_) l hl
      rw [location_setOffset]
      exact hend m (List.mem_cons_of_mem _ hm)

/-- A chain in front stays pending. -/
theorem pending {n : Nat} {b₀ : CodeBuffer} {outer : List Nat} (h : Patching target js b b')
    (houter : Pending n b₀ outer b) (hn : ∀ j ∈ js, n ≤ j)
    (hbehind : ∀ j ∈ js, ∀ k ∈ outer, k + 4 ≤ j) : Pending n b₀ outer b' := by
  induction h with
  | last =>
    exact houter.setOffset (hn _ List.mem_cons_self)
      (fun k hk => .inl (hbehind _ List.mem_cons_self k hk)) _
  | next _ _ _ ih =>
    refine ih (houter.setOffset (hn _ List.mem_cons_self)
      (fun k hk => .inl (hbehind _ List.mem_cons_self k hk)) _)
      (fun j hj => hn j (List.mem_cons_of_mem _ hj))
      (fun j hj => hbehind j (List.mem_cons_of_mem _ hj))

end Patching

theorem Linked.pairwise (h : Linked b js) : js.Pairwise fun j k => k + 4 ≤ j := by
  induction h with
  | nil => exact .nil
  | cons _ hapart _ _ ih => exact .cons hapart ih

/-- **Chains of jumps are patched completely, and nothing else is.**  Let the jumps of an
alternation be pending, the last of them at `last`, in a buffer where other chains may be pending.

* The loop that patches goes through all of them, the last first, and then ends.
* Each is made to go to the target: its offset is the distance from it to the target, as an offset
  is stored, and so it is the number itself if the target lies behind and in code of any length that
  there can be.
* No other byte of the code changes, nor the length of the code, nor the rest of the buffer.
* A chain that was pending in front when this one began is still pending. -/
theorem patchJumps_chain {n last : Nat} {b₀ : CodeBuffer} {earlier : List Nat}
    (h : Pending n b₀ (last :: earlier) b) (target : Nat) :
    Patching target (last :: earlier) b (b.patchJumps last target) ∧
    (∀ j ∈ last :: earlier, (b.patchJumps last target).offsetAt j = Int16.ofNat (target - j) ∧
      (last ≤ target → target ≤ maxCodeLength →
        ((b.patchJumps last target).offsetAt j).toInt = target - j)) ∧
    (∀ i, (∀ j ∈ last :: earlier, i ≠ j + 2 ∧ i ≠ j + 3) →
      (b.patchJumps last target).code[i]? = b.code[i]?) ∧
    (b.patchJumps last target).location = b.location ∧
    (b.patchJumps last target).room = b.room ∧ (b.patchJumps last target).size = b.size ∧
    ∀ n' b₁ outer, Pending n' b₁ outer b₀ → n' ≤ n → (∀ j ∈ outer, j + 4 ≤ n) →
      Pending n' b₁ outer (b.patchJumps last target) := by
  have hlinked := h.linked
  have hpatching := hlinked.patching target
  obtain ⟨hcode, hlocation, hroom, hsize⟩ := hpatching.frame
  have hoffset := hpatching.offsetAt_eq_target hlinked.pairwise fun j hj => hlinked.end_le hj
  refine ⟨hpatching, fun j hj => ⟨hoffset j hj, fun hlast htarget => ?_⟩, hcode, hlocation, hroom,
    hsize, fun n' b₁ outer houter hn hbehind => ?_⟩
  · have hle : j ≤ last := by
      cases hj with
      | head => exact Nat.le_refl _
      | tail _ hj =>
        have := (List.pairwise_cons.1 hlinked.pairwise).1 j hj
        omega
    rw [hoffset j hj, toInt_ofNat (by omega)]
    omega
  · have hfloor := h.floor_le
    exact hpatching.pending (h.around houter hn hbehind)
      (fun j hj => Nat.le_trans hn (hfloor j hj))
      (fun j hj k hk => Nat.le_trans (hbehind k hk) (hfloor j hj))

/-- Behind a pending jump, two more are pending in a chain of their own, with an `a` in between in
front of which a split has been inserted.  These two are made to go to where the code ends. -/
theorem patchJumps_chain_within :
    ∃ b₀ b, Pending 0 (ofRoom (List.replicate 24 0)) [0] b₀ ∧ Pending 4 b₀ [13, 4] b ∧
      ((b.patchJumps 13 17).offsetAt 13).toInt = 4 ∧ ((b.patchJumps 13 17).offsetAt 4).toInt = 13 ∧
      Pending 0 (ofRoom (List.replicate 24 0)) [0] (b.patchJumps 13 17) := by
  have hjump : (ofRoom (List.replicate 24 0)).emitJump none = some _ := rfl
  have houter : Pending 0 (ofRoom (List.replicate 24 0)) [0] _ :=
    .jump (.start (Nat.zero_le _)) hjump
  have hfirst : Pending 4 _ [4] _ := .jump (.start (offsetAt_emitJump hjump).2.ge) rfl
  have hbyte := hfirst.emit (i := .byte 0x61) rfl
  have hsplit := hbyte.insert (i := .split 0) (by decide : 4 ≤ 8) (by decide) (by decide) rfl
  have hsecond : Pending 4 _ [13, 4] _ := hsplit.jump rfl
  obtain ⟨-, hoffset, -, -, -, -, hpending⟩ := patchJumps_chain hsecond 17
  exact ⟨_, _, houter, hsecond, (hoffset 13 (by decide)).2 (by decide) (by decide),
    (hoffset 4 (by decide)).2 (by decide) (by decide),
    hpending 0 _ [0] houter (by decide) (by decide)⟩

end CodeBuffer

end BoundedRegex
