import BoundedRegex.Compile.Compiler

/-!
# What limits change

Compiling is followed twice: with limits on the nesting and the room, and with limits that are no
lower.  The two compilations write the same code and keep the same books, so they do the same until
the lower limits stop the first (`Compiler.limited_compile`).  Nothing that the buffer held before
plays a part.
-/

namespace BoundedRegex

/-- The error of a limit that has been reached: on the nesting, if the first of the limits on that
is lower than the second, or on the room. -/
inductive SyntaxError.OfLimit (depth depth' size size' : Nat) : SyntaxError → Prop where
  | nesting (hlt : depth < depth') (position : Nat) :
      OfLimit depth depth' size size' ⟨.nestingTooDeep, position⟩
  | room (hlt : size < size') (position : Nat) :
      OfLimit depth depth' size size' ⟨.tooLarge, position⟩

/-- Two results that are related, or the same error, or an error of the first that is a `Cut`. -/
inductive Limited {α β : Type} (Cut : SyntaxError → Prop) (R : α → β → Prop) :
    Except SyntaxError α → Except SyntaxError β → Prop where
  | ok {a : α} {b : β} (h : R a b) : Limited Cut R (.ok a) (.ok b)
  | same (x : SyntaxError) : Limited Cut R (.error x) (.error x)
  | cut {x : SyntaxError} (h : Cut x) (y : Except SyntaxError β) : Limited Cut R (.error x) y

namespace Limited

variable {α β γ δ : Type} {Cut : SyntaxError → Prop} {R : α → β → Prop} {S : γ → δ → Prop}

theorem bind {x : Except SyntaxError α} {y : Except SyntaxError β}
    {f : α → Except SyntaxError γ} {g : β → Except SyntaxError δ} (h : Limited Cut R x y)
    (hfg : ∀ a b, R a b → Limited Cut S (f a) (g b)) : Limited Cut S (x >>= f) (y >>= g) := by
  cases h with
  | ok h => exact hfg _ _ h
  | same x => exact .same x
  | cut h y => exact .cut h _

theorem of_ok {a : α} {b : β} (h : Limited Cut R (.ok a) (.ok b)) : R a b := by
  cases h with
  | ok h => exact h

theorem refl (x : Except SyntaxError α) : Limited Cut Eq x x := by
  cases x with
  | error x => exact .same x
  | ok a => exact .ok rfl

/-- What each step of a list of steps keeps up, the whole list does. -/
theorem foldlM {ι : Type} {f : α → ι → Except SyntaxError α} {g : β → ι → Except SyntaxError β}
    (hfg : ∀ a b i, R a b → Limited Cut R (f a i) (g b i)) (list : List ι) {a : α} {b : β}
    (h : R a b) : Limited Cut R (list.foldlM f a) (list.foldlM g b) := by
  induction list generalizing a b with
  | nil => exact .ok h
  | cons i rest ih =>
    rw [List.foldlM_cons, List.foldlM_cons]
    exact (hfg a b i h).bind fun a' b' h' => ih h'

end Limited

variable {depth depth' size size' : Nat}

/-! ### Buffers -/

/-- Two buffers with the same code, of these sizes. -/
structure CodeBuffer.Twins (size size' : Nat) (b b' : CodeBuffer) : Prop where
  code : b.code = b'.code
  size_eq : b.size = size
  size_eq' : b'.size = size'

/-- Two writes that come to twins, or both find no room, or the first does not. -/
inductive CodeBuffer.Written (size size' : Nat) : Option CodeBuffer → Option CodeBuffer → Prop where
  | some {b b' : CodeBuffer} (h : b.Twins size size' b') : Written size size' (some b) (some b')
  | none : Written size size' none none
  | full (hlt : size < size') (b : Option CodeBuffer) : Written size size' none b

namespace CodeBuffer

variable {b b' : CodeBuffer}

theorem Written.bind {x y : Option CodeBuffer} {f g : CodeBuffer → Option CodeBuffer}
    (h : Written size size' x y)
    (hfg : ∀ b b', b.Twins size size' b' → Written size size' (f b) (g b')) :
    Written size size' (x.bind f) (y.bind g) := by
  cases h with
  | some h => exact hfg _ _ h
  | none => exact .none
  | full hlt b => exact .full hlt _

namespace Twins

variable (h : b.Twins size size' b') (hle : size ≤ size')
include h

theorem location : b.location = b'.location := by
  rw [CodeBuffer.location, CodeBuffer.location, h.code]

theorem setOffset (location : Nat) (offset : Int16) :
    (b.setOffset location offset).Twins size size' (b'.setOffset location offset) where
  code := by
    unfold CodeBuffer.setOffset
    dsimp only
    rw [h.code]
  size_eq := h.size_eq
  size_eq' := h.size_eq'

theorem patchJumps (last target : Nat) :
    (b.patchJumps last target).Twins size size' (b'.patchJumps last target) := by
  induction last using Nat.strongRecOn generalizing b b' with
  | ind last ih =>
    have hoffset : b.offsetAt last = b'.offsetAt last := by
      rw [CodeBuffer.offsetAt, CodeBuffer.offsetAt, h.code]
    unfold CodeBuffer.patchJumps
    rw [hoffset]
    dsimp only
    split
    · exact ih _ (by omega) (h.setOffset last _)
    · exact h.setOffset last _

include hle

theorem fits {n : Nat} (hn : b.code.size + n ≤ b.capacity) : b'.code.size + n ≤ b'.capacity := by
  have hcapacity : b.capacity ≤ b'.capacity := by
    rw [capacity, capacity, h.size_eq, h.size_eq']
    exact Nat.le_min.2 ⟨Nat.le_trans (Nat.min_le_left ..) hle, Nat.min_le_right ..⟩
  rw [← h.code]
  exact Nat.le_trans hn hcapacity

/-- What fits into one of the buffers only fits into the larger. -/
theorem lt_of_fits {n : Nat} (hn : ¬b.code.size + n ≤ b.capacity)
    (hn' : b'.code.size + n ≤ b'.capacity) : size < size' := by
  refine Nat.lt_of_le_of_ne hle ?_
  rintro rfl
  rw [← h.code, capacity, h.size_eq', ← h.size_eq] at hn'
  exact hn hn'

theorem emit (i : Instr) : Written size size' (b.emit i) (b'.emit i) := by
  unfold CodeBuffer.emit
  dsimp only
  split
  · next hn =>
    rw [dif_pos (h.fits hle hn)]
    refine .some ⟨?_, h.size_eq, h.size_eq'⟩
    dsimp only
    rw [h.code]
  · next hn =>
    split
    · next hn' => exact .full (h.lt_of_fits hle hn hn') _
    · exact .none

theorem insert (location : Nat) (i : Instr) :
    Written size size' (b.insert location i) (b'.insert location i) := by
  unfold CodeBuffer.insert
  dsimp only
  split
  · next hn =>
    rw [dif_pos (h.fits hle hn)]
    refine .some ⟨?_, h.size_eq, h.size_eq'⟩
    dsimp only
    rw [h.code]
  · next hn =>
    split
    · next hn' => exact .full (h.lt_of_fits hle hn hn') _
    · exact .none

theorem emitJump (previous : Option Nat) :
    Written size size' (b.emitJump previous) (b'.emitJump previous) := by
  unfold CodeBuffer.emitJump
  rw [h.location]
  exact h.emit hle _

theorem makeLoop (start : Nat) (q : Quantifier) (singleByte keepsFrames : Bool) :
    Written size size' (b.makeLoop start q singleByte keepsFrames)
      (b'.makeLoop start q singleByte keepsFrames) := by
  unfold CodeBuffer.makeLoop
  rw [h.location]
  refine (h.insert hle start _).bind fun c c' hc => ?_
  cases singleByte with
  | true => exact .some hc
  | false =>
    rw [hc.location]
    exact hc.emit hle _

end Twins

end CodeBuffer

/-! ### Tokens -/

namespace Emission

/-- Two compilations that have read the same into buffers of these sizes. -/
structure Twins (size size' : Nat) (e e' : Emission) : Prop where
  buffer : e.buffer.Twins size size' e'.buffer
  captures : e.captures = e'.captures
  loopBound : e.loopBound = e'.loopBound
  level : e.level = e'.level
  openings : e.openings = e'.openings

/-- Two steps that come to twins, or to the same error, or the first to the error of a limit. -/
abbrev Paired (depth depth' size size' : Nat) :
    Except SyntaxError Emission → Except SyntaxError Emission → Prop :=
  Limited (SyntaxError.OfLimit depth depth' size size') (Twins size size')

namespace Twins

theorem of_buffer {b b' : CodeBuffer} (hb : b.Twins size size' b') (captures : Nat)
    (loopBound : BitVec 256) (level : Level) (openings : List Opening) :
    Twins size size' { buffer := b, captures, loopBound, level, openings }
      { buffer := b', captures, loopBound, level, openings } :=
  ⟨hb, rfl, rfl, rfl, rfl⟩

/-- Two compilations that have read nothing. -/
theorem start (buffer buffer' : List UInt8) :
    Twins buffer.length buffer'.length { buffer := .ofRoom buffer } { buffer := .ofRoom buffer' } :=
  ⟨⟨rfl, rfl, rfl⟩, rfl, rfl, rfl, rfl⟩

variable {e e' : Emission} (h : e.Twins size size' e')
include h

theorem write (position : Nat) {f f' : CodeBuffer → Option CodeBuffer}
    (hf : ∀ b b', b.Twins size size' b' → CodeBuffer.Written size size' (f b) (f' b')) :
    Paired depth depth' size size' (e.write position f) (e'.write position f') := by
  have hwritten := hf _ _ h.buffer
  unfold Emission.write
  dsimp only
  generalize f e.buffer = x at hwritten ⊢
  generalize f' e'.buffer = y at hwritten ⊢
  cases hwritten with
  | some hb => exact .ok ⟨hb, h.captures, h.loopBound, h.level, h.openings⟩
  | none => exact .same _
  | full hlt => exact .cut (.room hlt position) _

variable (hle : size ≤ size')
include hle

theorem element (position : Nat) (i : Instr) (f : Footprint) :
    Paired depth depth' size size' (e.element position i f) (e'.element position i f) := by
  have hplaced : ({ e with level := e.level.place ⟨e.buffer.location, e.captures, f⟩ } :
      Emission).Twins size size'
        { e' with level := e'.level.place ⟨e'.buffer.location, e'.captures, f⟩ } := by
    rw [h.buffer.location, h.captures, h.level]
    exact ⟨h.buffer, rfl, h.loopBound, rfl, h.openings⟩
  exact hplaced.write position fun b b' hb => hb.emit hle i

theorem quantify (position : Nat) (q : Quantifier) :
    Paired depth depth' size size' (e.quantify position q) (e'.quantify position q) := by
  unfold Emission.quantify
  rw [h.level]
  split
  · exact .same _
  · next o _ =>
    split
    · exact .same _
    · dsimp only
      rw [h.captures]
      refine (h.write position fun b b' hb => hb.makeLoop hle o.start q _ _).bind fun u u' hu => ?_
      refine .ok ⟨hu.buffer, hu.captures, ?_, ?_, hu.openings⟩
      · dsimp only
        rw [hu.loopBound]
      · dsimp only
        rw [hu.level]

theorem enter (hdepth : depth ≤ depth') (position : Nat) (capturing : Bool) :
    Paired depth depth' size size' (e.enter depth position capturing)
      (e'.enter depth' position capturing) := by
  obtain ⟨buffer, captures, loopBound, level, openings⟩ := e
  obtain ⟨buffer', _, _, _, _⟩ := e'
  obtain ⟨hb, rfl, rfl, rfl, rfl⟩ := h
  unfold Emission.enter
  dsimp only at hb ⊢
  rw [hb.location]
  by_cases hdeep : depth ≤ openings.length
  · rw [if_pos hdeep]
    by_cases hdeep' : depth' ≤ openings.length
    · rw [if_pos hdeep']
      exact .same _
    · exact .cut (.nesting (Nat.lt_of_le_of_lt hdeep (Nat.lt_of_not_le hdeep')) position) _
  · rw [if_neg hdeep, if_neg fun hdeep' => hdeep (Nat.le_trans hdepth hdeep')]
    split
    · split
      · refine Limited.bind ((of_buffer hb _ _ _ _).write position fun b b' hb => hb.emit hle _) ?_
        intro u u' hu
        rw [hu.buffer.location]
        exact .ok ⟨hu.buffer, hu.captures, hu.loopBound, rfl, hu.openings⟩
      · exact .same _
    · exact .ok ⟨hb, rfl, rfl, rfl, rfl⟩

omit hle in
theorem closeLevel (position : Nat) :
    Limited (SyntaxError.OfLimit depth depth' size size')
      (fun x x' => x.1 = x'.1 ∧ x.2.Twins size size' x'.2) (e.closeLevel position)
      (e'.closeLevel position) := by
  unfold Emission.closeLevel
  rw [h.level]
  split
  · exact .same _
  · refine .ok ⟨rfl, ?_⟩
    dsimp only
    split
    · rw [h.buffer.location]
      exact ⟨h.buffer.patchJumps _ _, h.captures, h.loopBound, rfl, h.openings⟩
    · exact h

theorem leave (position : Nat) (capturing : Bool) :
    Paired depth depth' size size' (e.leave position capturing) (e'.leave position capturing) := by
  unfold Emission.leave
  rw [h.openings]
  split
  · exact .same _
  · next o outer _ =>
    refine (h.closeLevel position).bind fun x x' hx => ?_
    obtain ⟨f, u⟩ := x
    obtain ⟨f', u'⟩ := x'
    obtain ⟨hf, hu⟩ := hx
    dsimp only at hf hu ⊢
    subst hf
    have hplaced (f : Footprint) : ({ u with
          level := o.around.place ⟨o.start, o.firstCapture, f⟩, openings := outer } :
        Emission).Twins size size' { u' with
          level := o.around.place ⟨o.start, o.firstCapture, f⟩, openings := outer } :=
      ⟨hu.buffer, hu.captures, hu.loopBound, rfl, rfl⟩
    split
    · exact .ok (hplaced f)
    · exact (hplaced f.captured).write position fun b b' hb => hb.emit hle _
    · exact .same _

theorem alternate (position : Nat) :
    Paired depth depth' size size' (e.alternate position) (e'.alternate position) := by
  unfold Emission.alternate
  rw [h.level]
  split
  · exact .same _
  · next f _ =>
    dsimp only
    refine (h.write position fun b b' hb => hb.insert hle _ _).bind fun u u' hu => ?_
    have hended : ({ u with level :=
          { start := e'.level.start
            alternatives := some (u.level.addAlternative f.withSplit)
            lastJump := some u.buffer.location } } : Emission).Twins size size' { u' with level :=
          { start := e'.level.start
            alternatives := some (u'.level.addAlternative f.withSplit)
            lastJump := some u'.buffer.location } } := by
      rw [hu.level, hu.buffer.location]
      exact ⟨hu.buffer, hu.captures, hu.loopBound, rfl, hu.openings⟩
    refine (hended.write position fun b b' hb => hb.emitJump hle _).bind fun v v' hv => ?_
    rw [hv.buffer.location, hv.level]
    exact .ok ⟨hv.buffer.setOffset _ _, hv.captures, hv.loopBound, rfl, hv.openings⟩

/-- **A token does the same to both**, unless it takes the first to a limit. -/
theorem feed (hdepth : depth ≤ depth') (t : Token) :
    Paired depth depth' size size' (e.feed depth t) (e'.feed depth' t) := by
  unfold Emission.feed
  split
  · exact h.element hle t.position _ _
  · exact h.element hle t.position _ _
  · exact h.element hle t.position _ _
  · exact h.element hle t.position _ _
  · exact h.element hle t.position _ _
  · exact h.enter hle hdepth t.position false
  · exact h.enter hle hdepth t.position true
  · exact h.leave hle t.position false
  · exact h.leave hle t.position true
  · exact h.alternate hle t.position
  · exact h.quantify hle t.position _

theorem feedAll (hdepth : depth ≤ depth') (list : List Token) :
    Paired depth depth' size size' (list.foldlM (Emission.feed depth) e)
      (list.foldlM (Emission.feed depth') e') :=
  Limited.foldlM (fun _ _ t h => h.feed hle hdepth t) list h

theorem finish (length : Nat) :
    Limited (SyntaxError.OfLimit depth depth' size size')
      (fun x x' => x.1 = x'.1 ∧ x.2.Twins size size' x'.2) (e.finish length)
      (e'.finish length) := by
  unfold Emission.finish
  refine (h.closeLevel length).bind fun x x' hx => ?_
  obtain ⟨f, u⟩ := x
  obtain ⟨f', u'⟩ := x'
  obtain ⟨hf, hu⟩ := hx
  dsimp only at hf hu ⊢
  subst hf
  rw [hu.openings]
  split
  · exact .same _
  · refine (hu.write length fun b b' hb => hb.emit hle .accept).bind fun v v' hv => ?_
    exact .ok ⟨rfl, hv⟩

theorem toRegex (f : Footprint) (length : Nat) :
    Limited (SyntaxError.OfLimit depth depth' size size') Eq (e.toRegex f length)
      (e'.toRegex f length) := by
  obtain ⟨buffer, captures, loopBound, level, openings⟩ := e
  obtain ⟨buffer', _, _, _, _⟩ := e'
  obtain ⟨hb, rfl, rfl, rfl, rfl⟩ := h
  unfold Emission.toRegex
  dsimp only at hb ⊢
  rw [hb.location, hb.size_eq, hb.size_eq']
  split
  · exact .same _
  · by_cases hroom : size < headerLength captures + buffer'.location
    · rw [if_pos hroom]
      by_cases hroom' : size' < headerLength captures + buffer'.location
      · rw [if_pos hroom']
        exact .same _
      · exact .cut (.room (Nat.lt_of_lt_of_le hroom (Nat.le_of_not_lt hroom')) length) _
    · rw [if_neg hroom, if_neg fun hroom' => hroom (Nat.lt_of_le_of_lt hle hroom')]
      refine .ok ?_
      rw [Regex.mk.injEq, hb.code]
      exact ⟨rfl, rfl, rfl, rfl⟩

end Twins

end Emission

/-! ### Patterns -/

/-- **Limits do no more than stop a compilation.** -/
theorem Compiler.limited_compile {c c' : Compiler} (hdepth : c.maxNesting ≤ c'.maxNesting)
    (pattern : List UInt8) {buffer buffer' : List UInt8} (hle : buffer.length ≤ buffer'.length) :
    Limited (SyntaxError.OfLimit c.maxNesting c'.maxNesting buffer.length buffer'.length) Eq
      (c.compile pattern buffer) (c'.compile pattern buffer') := by
  have hfed := (Emission.Twins.start buffer buffer').feedAll hle hdepth
    (Lexemes.ofPattern pattern).tokens
  refine hfed.bind fun e e' he => ?_
  refine (Limited.refl _).bind fun length length' hlength => ?_
  subst hlength
  refine (he.finish hle length).bind fun x x' hx => ?_
  obtain ⟨f, u⟩ := x
  obtain ⟨f', u'⟩ := x'
  obtain ⟨hf, hu⟩ := hx
  dsimp only at hf hu ⊢
  subst hf
  exact hu.toRegex hle f length

end BoundedRegex
