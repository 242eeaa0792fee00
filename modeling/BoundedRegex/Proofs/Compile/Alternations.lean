import BoundedRegex.Proofs.Code.JumpChain
import BoundedRegex.Proofs.Compile.Emission

/-!
# The alternations of a pattern

Each level has a chain of pending jumps, one behind each alternative that is finished, and the
levels around it have theirs in front (`Emission.Chained`).  What a token asks for is done behind
the jumps of its level: instructions go to the end of the code, a loop goes in front of the operand
and a split in front of the open alternative.  So the chains of all levels stay what they are until
their level is closed (`Emission.Chained.feed`).

When a level is closed its jumps are a `CodeBuffer.Pending` chain, and patching that chain is all
that is done to the code (`Emission.closeLevel_pending`).  So what `CodeBuffer.patchJumps_chain`
says of such chains holds wherever the compiler patches jumps; in particular all jumps of the level
go to the end of its code (`Emission.closeLevel_patching`).
-/

namespace BoundedRegex

open CodeBuffer (Pending)

/-- The jumps of a level are a chain that began at `n`.  They are in front of the open alternative,
and that is in front of `stop`, with the operand. -/
structure Level.Pends (l : Level) (n : Nat) (b : CodeBuffer) (stop : Nat) : Prop where
  chain : ∃ b₀ js, Pending n b₀ js b ∧ js.head? = l.lastJump ∧ ∀ j ∈ js, j + 4 ≤ l.start
  floor_le : n ≤ l.start
  start_le : l.start ≤ stop
  operand : ∀ o, l.operand = some o → l.start ≤ o.start ∧ o.start ≤ stop

/-- The levels around one that began at `n`, the innermost first, have their jumps in front of the
brackets that they are around. -/
def Opening.Pend (b : CodeBuffer) : Nat → List Opening → Prop
  | _, [] => True
  | n, o :: outer => o.start ≤ n ∧ ∃ m, o.around.Pends m b o.start ∧ Opening.Pend b m outer

/-- The levels of a compilation have chains of pending jumps, one behind the other. -/
def Emission.Chained (E : Emission) : Prop :=
  ∃ n, E.level.Pends n E.buffer E.buffer.location ∧ Opening.Pend E.buffer n E.openings

/-! ### What is done behind the jumps -/

namespace Level.Pends

variable {l : Level} {n m stop stop' : Nat} {b b' : CodeBuffer}

theorem floor_le_stop (h : l.Pends n b stop) : n ≤ stop :=
  Nat.le_trans h.floor_le h.start_le

/-- A chain is left alone by what is done behind its level. -/
theorem after (h : l.Pends n b stop) {js : List Nat} (hafter : Pending m b js b') (hm : stop ≤ m) :
    l.Pends n b' stop := by
  obtain ⟨b₀, outer, houter, hhead, hbehind⟩ := h.chain
  have hle := Nat.le_trans h.start_le hm
  exact { h with
    chain := ⟨b₀, outer, hafter.around houter (Nat.le_trans h.floor_le hle)
      (fun j hj => Nat.le_trans (hbehind j hj) hle), hhead, hbehind⟩ }

theorem mono (h : l.Pends n b stop) (hle : stop ≤ stop') : l.Pends n b stop' :=
  { h with
    start_le := Nat.le_trans h.start_le hle
    operand := fun o ho => ⟨(h.operand o ho).1, Nat.le_trans (h.operand o ho).2 hle⟩ }

theorem place (h : l.Pends n b stop) {o : Operand} (ho : l.start ≤ o.start)
    (hstop : o.start ≤ stop) : (l.place o).Pends n b stop :=
  { chain := h.chain
    floor_le := h.floor_le
    start_le := h.start_le
    operand := fun o' ho' => by
      cases ho'
      exact ⟨ho, hstop⟩ }

theorem empty (b : CodeBuffer) : ({ start := b.location } : Level).Pends b.location b b.location :=
  { chain := ⟨b, [], .start (Nat.le_refl _), rfl, nofun⟩
    floor_le := Nat.le_refl _
    start_le := Nat.le_refl _
    operand := nofun }

end Level.Pends

theorem Opening.Pend.after {openings : List Opening} {n m : Nat} {b b' : CodeBuffer}
    (h : Opening.Pend b n openings) {js : List Nat} (hafter : Pending m b js b') (hm : n ≤ m) :
    Opening.Pend b' n openings := by
  induction openings generalizing n with
  | nil => trivial
  | cons o outer ih =>
    obtain ⟨hle, k, haround, houter⟩ := h
    have ho := Nat.le_trans hle hm
    exact ⟨hle, k, haround.after hafter ho, ih houter (Nat.le_trans haround.floor_le_stop ho)⟩

namespace Emission

variable {E E' : Emission} {position limit : Nat}

namespace Chained

/-- At the start there is nothing. -/
theorem start (buffer : List UInt8) : ({ buffer := .ofRoom buffer } : Emission).Chained :=
  ⟨0, .empty (.ofRoom buffer), trivial⟩

/-- An instruction is written at the end of the code. -/
theorem emit {b : CodeBuffer} {i : Instr} (h : E.Chained) (hemit : E.buffer.emit i = some b) :
    ({ E with buffer := b } : Emission).Chained := by
  obtain ⟨n, hlevel, houter⟩ := h
  have hafter : Pending E.buffer.location E.buffer [] b :=
    (Pending.start (Nat.le_refl _)).emit hemit
  have hn := hlevel.floor_le_stop
  exact ⟨n, (hlevel.after hafter (Nat.le_refl _)).mono hafter.location_le.2, houter.after hafter hn⟩

theorem element {i : Instr} {f : Footprint} (h : E.Chained) (hE : E.element position i f = .ok E') :
    E'.Chained := by
  obtain ⟨b, hemit, rfl⟩ := write_eq hE
  obtain ⟨n, hlevel, houter⟩ := h
  refine emit (E := { E with level := _ }) ?_ hemit
  exact ⟨n, hlevel.place hlevel.start_le (Nat.le_refl _), houter⟩

theorem quantify {q : Quantifier} (h : E.Chained) (hE : E.quantify position q = .ok E') :
    E'.Chained := by
  obtain ⟨n, hlevel, houter⟩ := h
  unfold Emission.quantify at hE
  split at hE
  · cases hE
  · next o ho =>
    split at hE
    · cases hE
    · obtain ⟨E₁, hwrite, hE⟩ := bind_eq_ok hE
      obtain ⟨b, hloop, rfl⟩ := write_eq hwrite
      cases hE
      obtain ⟨b₀, js, hchain, hhead, hbehind⟩ := hlevel.chain
      obtain ⟨hstart, hstop⟩ := hlevel.operand o ho
      have hn := Nat.le_trans hlevel.floor_le hstart
      have hafter : Pending n E.buffer [] b :=
        (Pending.start (Nat.le_trans hn hstop)).makeLoop hn nofun hstop hloop
      refine ⟨n, ?_, houter.after hafter (Nat.le_refl _)⟩
      exact
        { chain := ⟨b₀, js, hchain.makeLoop hn (fun j hj => Nat.le_trans (hbehind j hj) hstart)
            hstop hloop, hhead, hbehind⟩
          floor_le := hlevel.floor_le
          start_le := Nat.le_trans hlevel.start_le hafter.location_le.2
          operand := nofun }

theorem enter {capturing : Bool} (h : E.Chained) (hE : E.enter limit position capturing = .ok E') :
    E'.Chained := by
  obtain ⟨n, hlevel, houter⟩ := h
  have hn := hlevel.floor_le_stop
  unfold Emission.enter at hE
  split at hE
  · cases hE
  · cases capturing with
    | false =>
      cases hE
      exact ⟨_, .empty E.buffer, Nat.le_refl _, n, hlevel, houter⟩
    | true =>
      rw [if_pos rfl] at hE
      split at hE
      · obtain ⟨E₁, hwrite, hE⟩ := bind_eq_ok hE
        obtain ⟨b, hemit, rfl⟩ := write_eq hwrite
        cases hE
        have hafter : Pending E.buffer.location E.buffer [] b :=
          (Pending.start (Nat.le_refl _)).emit hemit
        exact ⟨_, .empty b, hafter.location_le.2, n, hlevel.after hafter (Nat.le_refl _),
          houter.after hafter hn⟩
      · cases hE

theorem alternate (h : E.Chained) (hE : E.alternate position = .ok E') : E'.Chained := by
  obtain ⟨n, hlevel, houter⟩ := h
  unfold Emission.alternate at hE
  split at hE
  · cases hE
  · obtain ⟨E₁, hwrite, hE⟩ := bind_eq_ok hE
    obtain ⟨b₁, hinsert, rfl⟩ := write_eq hwrite
    obtain ⟨E₂, hwrite, hE⟩ := bind_eq_ok hE
    obtain ⟨b₂, hjump, rfl⟩ := write_eq hwrite
    cases hE
    obtain ⟨b₀, js, hchain, hhead, hbehind⟩ := hlevel.chain
    have hn := hlevel.floor_le_stop
    have hafter (o : Int16) : Pending n E.buffer [] (b₂.setOffset E.level.start o) :=
      (((Pending.start hn).insert hlevel.floor_le nofun hlevel.start_le hinsert).emit
        hjump).setOffset hlevel.floor_le nofun o
    rw [← hhead] at hjump
    have hchain (o : Int16) :
        Pending n b₀ (b₁.location :: js) (b₂.setOffset E.level.start o) :=
      hchain.alternative hlevel.floor_le hbehind hlevel.start_le hinsert hjump o
    have hlocation (o : Int16) : (b₂.setOffset E.level.start o).location = b₂.location :=
      CodeBuffer.location_setOffset
    have hend : ∀ j ∈ b₁.location :: js, j + 4 ≤ b₂.location := fun j hj =>
      hlocation 0 ▸ (hchain 0).linked.end_le hj
    have hfloor : n ≤ b₂.location := hlocation 0 ▸ Nat.le_trans hn (hafter 0).location_le.2
    refine ⟨n, ?_, houter.after (hafter _) (Nat.le_refl _)⟩
    exact
      { chain := ⟨b₀, _, hchain _, rfl, hend⟩
        floor_le := hfloor
        start_le := (hlocation _).ge
        operand := nofun }

/-- **When a level is closed, its chain of jumps is patched**, and the chains around it are left
alone. -/
theorem closeLevel {f : Footprint} (h : E.Chained) (hE : E.closeLevel position = .ok (f, E')) :
    (∃ n, Opening.Pend E'.buffer n E.openings ∧ n ≤ E'.buffer.location) ∧
      ∀ last, E.level.lastJump = some last → ∃ n b₀ earlier,
        Pending n b₀ (last :: earlier) E.buffer ∧
        E'.buffer = E.buffer.patchJumps last E.buffer.location := by
  obtain ⟨n, hlevel, houter⟩ := h
  obtain ⟨b₀, js, hchain, hhead, hbehind⟩ := hlevel.chain
  have hn := hlevel.floor_le_stop
  unfold Emission.closeLevel at hE
  split at hE
  · cases hE
  · cases hE
    cases hlast : E.level.lastJump with
    | none => exact ⟨⟨n, houter, hn⟩, nofun⟩
    | some last =>
      dsimp only
      rw [hlast] at hhead
      obtain ⟨earlier, rfl⟩ := List.head?_eq_some_iff.1 hhead
      have hpatching := hchain.linked.patching E.buffer.location
      have hafter : Pending n E.buffer [] (E.buffer.patchJumps last E.buffer.location) :=
        hpatching.pending (.start hn) hchain.floor_le nofun
      refine ⟨⟨n, houter.after hafter (Nat.le_refl _), Nat.le_trans hn hafter.location_le.2⟩, ?_⟩
      intro last' hlast'
      cases hlast'
      exact ⟨n, b₀, earlier, hchain, rfl⟩

theorem leave {capturing : Bool} (h : E.Chained) (hE : E.leave position capturing = .ok E') :
    E'.Chained := by
  unfold Emission.leave at hE
  split at hE
  · cases hE
  · next o outer ho =>
    obtain ⟨⟨f, E₁⟩, hclose, hE⟩ := bind_eq_ok hE
    obtain ⟨⟨n, hpend, hn⟩, -⟩ := h.closeLevel hclose
    rw [ho] at hpend
    obtain ⟨hstart, m, haround, houter⟩ := hpend
    have hplaced (g : Footprint) :
        ({ E₁ with
            level := o.around.place ⟨o.start, o.firstCapture, g⟩
            openings := outer } : Emission).Chained :=
      ⟨m, (haround.mono (Nat.le_trans hstart hn)).place haround.start_le (Nat.le_trans hstart hn),
        houter⟩
    dsimp only at hE
    split at hE
    · cases hE
      exact hplaced f
    · obtain ⟨b, hemit, rfl⟩ := write_eq hE
      exact (hplaced f.captured).emit hemit
    · cases hE

/-- **A token leaves the levels chained.** -/
theorem feed {t : Token} (h : E.Chained) (hE : E.feed limit t = .ok E') : E'.Chained := by
  obtain ⟨kind, position⟩ := t
  cases kind with
  | byte | set | anyByte | inputStart | inputEnd => exact h.element hE
  | groupOpen | captureOpen => exact h.enter hE
  | groupClose | captureClose => exact h.leave hE
  | alternation => exact h.alternate hE
  | quantifier => exact h.quantify hE

/-- However many tokens have been read, the levels are chained. -/
theorem foldlM {tokens : List Token} (h : E.Chained)
    (hE : tokens.foldlM (Emission.feed limit) E = .ok E') : E'.Chained := by
  induction tokens generalizing E with
  | nil =>
    cases hE
    exact h
  | cons t tokens ih =>
    obtain ⟨E₁, hfeed, hE⟩ := bind_eq_ok hE
    exact ih (h.feed hfeed) hE

end Chained

/-- **Wherever the compiler patches jumps, they are a pending chain.**  Let some tokens have been
read, and let the level that they lead to be closed.  If alternatives have been finished, then the
jumps behind them are pending, and what closing the level does to the code is to patch them. -/
theorem closeLevel_pending {buffer : List UInt8} {tokens : List Token} {f : Footprint} {last : Nat}
    (hfeed : tokens.foldlM (feed limit) { buffer := .ofRoom buffer } = .ok E)
    (hclose : E.closeLevel position = .ok (f, E')) (hlast : E.level.lastJump = some last) :
    ∃ n b₀ earlier, Pending n b₀ (last :: earlier) E.buffer ∧
      E'.buffer = E.buffer.patchJumps last E.buffer.location :=
  (((Chained.start buffer).foldlM hfeed).closeLevel hclose).2 last hlast

/-- **The jumps of an alternation go to its end.**  The loop that patches goes through the jumps
behind the alternatives of the level and ends, and each of them then goes to the end of the code. -/
theorem closeLevel_patching {buffer : List UInt8} {tokens : List Token} {f : Footprint} {last : Nat}
    (hfeed : tokens.foldlM (feed limit) { buffer := .ofRoom buffer } = .ok E)
    (hclose : E.closeLevel position = .ok (f, E')) (hlast : E.level.lastJump = some last) :
    ∃ earlier, CodeBuffer.Patching E.buffer.location (last :: earlier) E.buffer E'.buffer ∧
      ∀ j ∈ last :: earlier, (E'.buffer.offsetAt j).toInt = E.buffer.location - j := by
  obtain ⟨n, b₀, earlier, hpending, hbuffer⟩ := closeLevel_pending hfeed hclose hlast
  have hlinked := hpending.linked
  have hpatching := hlinked.patching E.buffer.location
  rw [hbuffer]
  refine ⟨earlier, hpatching, fun j hj => ?_⟩
  have hend := hlinked.end_le hj
  have hcode : E.buffer.location ≤ maxCodeLength := E.buffer.code_le
  rw [hpatching.offsetAt_eq_target hlinked.pairwise (fun j hj => hlinked.end_le hj) j hj,
    toInt_ofNat (by omega)]
  omega

end Emission

end BoundedRegex
