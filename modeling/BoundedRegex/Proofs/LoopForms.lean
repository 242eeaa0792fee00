import BoundedRegex.Proofs.Match.Ample
import BoundedRegex.Proofs.Stored

/-!
# Two forms of a loop

A loop around one instruction that consumes a byte can be written in two forms.  In the one it runs
as a whole: the machine counts the bytes that the instruction accepts, and finds the offset after
any number of iterations by adding.  In the other it is a loop like any that commits its iterations:
the machine executes the instruction again and again, and replays.

* `Expr.LaidOut.enumerates_behind`: the code of an expression, behind code that offers some points,
  enumerates the results of the expression from these points on.
* `enumerates_singleByteForm` and `enumerates_generalForm`: in either form the loop offers the same
  points (`Instr.loopPoints`) to what is behind it.
* `Compiler.loop_forms_agree`: the two forms do the same, whatever the instruction is and however it
  is written, and whatever compiled pattern is behind them.
-/

namespace BoundedRegex

/-- A loop around one instruction, with the bounds of a quantifier. -/
def loopAround (q : Quantifier) (singleByte : Bool) (bodyLength : Nat) : Loop :=
  { min := q.min, max := q.max, greedy := q.greedy, singleByte, keepsFrames := false
    bodyLength := .ofNat bodyLength }

/-- A loop around an instruction that consumes a byte, in the form that runs as a whole, with more
code behind it. -/
def singleByteForm (q : Quantifier) (body rest : List UInt8) : List UInt8 :=
  (Instr.loop (loopAround q true body.length)).encode ++ body ++ rest

/-- The same loop in the form of any loop that commits its iterations. -/
def generalForm (q : Quantifier) (body rest : List UInt8) : List UInt8 :=
  (Instr.loop (loopAround q false (body.length + 4))).encode ++ body ++
    (Instr.loopEnd (-.ofNat (body.length + 7))).encode ++ rest

variable {p : Program} {input : Array UInt8} {i : Instr} {q : Quantifier} {s t : Point}

/-! ### What the loops offer -/

theorem mem_taken :
    t ∈ i.taken input s ↔ input[s.pos]?.any i.accepts = true ∧ t = s.advanced 1 := by
  rw [Instr.taken]
  split
  · next h => simp [h]
  · next h => simp [h]

theorem pos_le_size_of_mem_taken (h : t ∈ i.taken input s) : t.pos ≤ input.size := by
  obtain ⟨hany, rfl⟩ := mem_taken.1 h
  refine Nat.succ_le_of_lt (Nat.lt_of_not_le ?_)
  intro hle
  rw [Array.getElem?_eq_none hle] at hany
  cases hany

/-- The points at which a loop around an instruction that consumes a byte is left, in order. -/
def Instr.loopPoints (i : Instr) (input : Array UInt8) (q : Quantifier) (s : Point) : List Point :=
  inOrder q.greedy ((iterates (i.taken input) (Expr.iterations input q) s).drop q.min.toNat)

theorem pos_le_size_of_mem_loopPoints (hs : s.pos ≤ input.size) (h : t ∈ i.loopPoints input q s) :
    t.pos ≤ input.size := by
  have hmem := List.mem_of_mem_drop (mem_inOrder.1 h)
  refine rel_of_mem_iterates (R := fun s t => s.pos ≤ input.size → t.pos ≤ input.size)
    (fun _ hs => hs) (fun _ _ _ h h' hs => h' (h hs)) ?_ hmem hs
  intro s t ht _
  exact pos_le_size_of_mem_taken ht

/-- Behind code that offers some points, the code of an expression enumerates its results from
them on. -/
theorem Expr.LaidOut.enumerates_behind {e : Expr} {start a b n : Nat} {points : List Point}
    (he : e.LaidOut p a b) (hwf : e.WellFormed) (hacc : p.fetch? b = some (.accept, n))
    (h : Offers p input (e.peak + 1) a (Entry.Of 0 a []) 1 [] (.running 0 start [] []) points)
    (hpoints : ∀ t ∈ points, t.pos ≤ input.size) :
    Enumerates p input (e.peak + 1) (.running 0 start [] [])
      (points.flatMap (e.results input)) := by
  have hbehind : Offers p input (e.peak + 1) b (fun _ => True) (1 + e.residual) []
      (.running 0 start [] []) (points.flatMap (e.results input)) := by
    refine h.bind (fun _ _ => trivial) (Nat.le_refl _) ?_
    intro F hF hlen hd t ht
    refine (e.offers_results hwf he (hpoints t ht) ?_).mono (fun _ _ => trivial) (Nat.le_refl _)
    rw [List.append_nil, Nat.add_comm]
    exact Nat.add_le_add_left hlen _
  exact .of_offers hacc hbehind

/-! ### The two forms -/

/-- What a loop around an instruction that consumes a byte asks for, whatever its form: its body is
that instruction, and its bounds are in order. -/
structure ByteLoop (q : Quantifier) (body : List UInt8) (i : Instr) : Prop where
  decode : Instr.decode? body = some (i, body.length)
  isSingleByte : i.isSingleByte = true
  min_le : q.min ≤ 254
  max_pos : 1 ≤ q.max
  min_le_max : q.min ≤ q.max ∨ q.max = unboundedCount

namespace ByteLoop

variable {body : List UInt8} (h : ByteLoop q body i) {e : Expr} {rest : List UInt8}

include h

theorem inOrder (singleByte : Bool) (bodyLength : Nat) :
    (loopAround q singleByte bodyLength).InOrder where
  max_ne_zero := by
    intro hzero
    have hmax := h.max_pos
    rw [show q.max = 0 from hzero] at hmax
    exact absurd hmax (by decide)
  min_ne_unbounded := by
    intro hmin
    have hle := h.min_le
    rw [show q.min = 255 from hmin] at hle
    exact absurd hle (by decide)
  min_le_max := h.min_le_max.symm
  keepsFrames := nofun

theorem min_le_max_toNat : q.max = unboundedCount ∨ q.min.toNat ≤ q.max.toNat :=
  h.min_le_max.symm.imp id UInt8.le_iff_toNat_le.1

end ByteLoop

/-- Where a loop lies at the start of a program, and behind it the code of an expression and an
instruction that accepts and is the last. -/
structure LoopInFront (p : Program) (l : Loop) (i : Instr) (n : Nat) (e : Expr) (b : Nat) :
    Prop where
  fetch : p.fetch? 0 = some (.loop l, 7)
  fetch_body : p.fetch? (Loop.body 0) = some (i, n)
  laidOut : e.LaidOut p (l.after 0) b
  fetch_accept : p.fetch? b = some (.accept, 2)
  length_eq : b + 2 = p.code.length

section

variable {body : List UInt8} {e : Expr} {start : Nat}

theorem after_loopAround {n : Nat} (hn : n ≤ maxCodeLength) (singleByte : Bool) :
    (loopAround q singleByte n).after 0 = 7 + n := by
  have hlt : n < 65536 := Nat.lt_of_le_of_lt hn (by decide)
  rw [Loop.after, Loop.body, Nat.zero_add, loopAround, UInt16.toNat_ofNat_of_lt' hlt]
  rfl

theorem loopInFront_singleByteForm (h : ByteLoop q body i)
    (hcode : p.code = singleByteForm q body (e.code ++ Instr.accept.encode))
    (hlen : p.code.length ≤ maxCodeLength) :
    ∃ b, LoopInFront p (loopAround q true body.length) i body.length e b ∧
      (loopAround q true body.length).after 0 = 7 + body.length := by
  have hholds : p.Holds 0 (singleByteForm q body (e.code ++ Instr.accept.encode)) :=
    ⟨[], [], by simpa using hcode, rfl⟩
  have hbody : p.Holds 7 body := hholds.left.right
  have hrest : p.Holds (7 + body.length) (e.code ++ Instr.accept.encode) := by
    have hright := hholds.right
    rw [List.length_append, Nat.zero_add] at hright
    exact hright
  have hafter : (loopAround q true body.length).after 0 = 7 + body.length :=
    after_loopAround (Nat.le_trans (Nat.le_of_add_left_le hbody.le) hlen) true
  refine ⟨7 + body.length + e.code.length, ⟨hholds.left.left.fetch?_eq trivial,
    hbody.fetch?_of_decode? h.decode, ?_, hrest.right.fetch?_eq trivial, ?_⟩, hafter⟩
  · rw [hafter]
    exact e.laidOut_of_holds hrest.left hlen
  · rw [hcode, singleByteForm]
    simp only [List.length_append, ← Nat.add_assoc]
    rfl

theorem loopInFront_generalForm (h : ByteLoop q body i)
    (hcode : p.code = generalForm q body (e.code ++ Instr.accept.encode))
    (hlen : p.code.length ≤ maxCodeLength) :
    ∃ b, LoopInFront p (loopAround q false (body.length + 4)) i body.length e b ∧
      (loopAround q false (body.length + 4)).after 0 = 7 + body.length + 4 ∧
      ∃ o, p.fetch? (7 + body.length) = some (.loopEnd o, 4) ∧
        offsetTarget (7 + body.length) o = 0 := by
  have hholds : p.Holds 0 (generalForm q body (e.code ++ Instr.accept.encode)) :=
    ⟨[], [], by simpa using hcode, rfl⟩
  have hbody : p.Holds 7 body := hholds.left.left.right
  have hend : p.Holds (7 + body.length) (Instr.loopEnd (-.ofNat (body.length + 7))).encode := by
    have hright := hholds.left.right
    rw [List.length_append, Nat.zero_add] at hright
    exact hright
  have hrest : p.Holds (7 + (body.length + 4)) (e.code ++ Instr.accept.encode) := by
    have hright := hholds.right
    rw [List.length_append, List.length_append, Nat.zero_add, Nat.add_assoc] at hright
    exact hright
  have hle : 7 + (body.length + 4) ≤ maxCodeLength :=
    Nat.le_trans (Nat.le_of_add_right_le hrest.le) hlen
  have hafter : (loopAround q false (body.length + 4)).after 0 = 7 + (body.length + 4) :=
    after_loopAround (Nat.le_of_add_left_le hle) false
  refine ⟨7 + (body.length + 4) + e.code.length, ⟨hholds.left.left.left.fetch?_eq trivial,
    hbody.fetch?_of_decode? h.decode, ?_, hrest.right.fetch?_eq trivial, ?_⟩, hafter,
    _, hend.fetch?_eq trivial, ?_⟩
  · rw [hafter]
    exact e.laidOut_of_holds hrest.left hlen
  · rw [hcode, generalForm]
    simp only [List.length_append, ← Nat.add_assoc]
    rfl
  · rw [Nat.add_comm 7, offsetTarget_neg (Nat.le_refl _) (by omega), Nat.sub_self]

/-! ### What they enumerate -/

theorem enumerates_singleByteForm (h : ByteLoop q body i)
    (hcode : p.code = singleByteForm q body (e.code ++ Instr.accept.encode))
    (hlen : p.code.length ≤ maxCodeLength) (hwf : e.WellFormed) (hstart : start ≤ input.size) :
    Enumerates p input (e.peak + 1) (.running 0 start [] [])
      ((i.loopPoints input q ⟨start, []⟩).flatMap (e.results input)) := by
  obtain ⟨b, hp, -⟩ := loopInFront_singleByteForm h hcode hlen
  have hloop : ByteLoopCode p (loopAround q true body.length) 0 i :=
    ⟨hp.fetch, ⟨body.length, hp.fetch_body⟩, rfl, rfl, h.min_le_max_toNat⟩
  have hd : ([] : List Entry).length + 1 ≤ e.peak + 1 := Nat.le_add_left ..
  refine hp.laidOut.enumerates_behind hwf hp.fetch_accept
    (hloop.offers (s := ⟨start, []⟩) hd (Expr.left_iterations rfl _)) ?_
  intro t ht
  exact pos_le_size_of_mem_loopPoints hstart ht

theorem enumerates_generalForm (h : ByteLoop q body i)
    (hcode : p.code = generalForm q body (e.code ++ Instr.accept.encode))
    (hlen : p.code.length ≤ maxCodeLength) (hwf : e.WellFormed) (hstart : start ≤ input.size) :
    Enumerates p input (e.peak + 1) (.running 0 start [] [])
      ((i.loopPoints input q ⟨start, []⟩).flatMap (e.results input)) := by
  obtain ⟨b, hp, hafter, hend⟩ := loopInFront_generalForm h hcode hlen
  have hloop : LoopCode p input (loopAround q false (body.length + 4)) 0 (7 + body.length) 0 0 []
      (i.taken input) := {
    fetch := hp.fetch
    after_eq := hafter
    fetch_end := hend
    singleByte := rfl
    body := fun d S s _ hd => i.offers_taken h.isSingleByte hp.fetch_body hd
    consumes := by
      intro s t ht
      rw [(mem_taken.1 ht).2]
      exact Nat.lt_succ_self s.pos
    within := fun s t ht _ => pos_le_size_of_mem_taken ht
    max_pos := UInt8.le_iff_toNat_le.1 h.max_pos
    min_le_max := h.min_le_max_toNat }
  have hd : ([] : List Entry).length + (1 + 0) ≤ e.peak + 1 := Nat.le_add_left ..
  refine hp.laidOut.enumerates_behind hwf hp.fetch_accept
    (hloop.offers_committed rfl (s := ⟨start, []⟩) hd hstart (Expr.left_iterations rfl _)) ?_
  intro t ht
  exact pos_le_size_of_mem_loopPoints hstart ht

/-! ### Both can be loaded -/

/-- Where a path leads through the loop, one leads through the whole. -/
theorem LoopInFront.admissible {l : Loop} {n b captures : Nat} (hp : LoopInFront p l i n e b)
    (hwf : e.WellFormed) (hfits : e.Fits captures) (hlen : p.code.length ≤ maxCodeLength)
    (hpath : p.Path (p.AdmitsInside captures) 0 (l.after 0)) : p.Admissible captures := by
  have hb : b < p.code.length := by
    rw [← hp.length_eq]
    exact Nat.lt_add_of_pos_right Nat.zero_lt_two
  have hstarts : p.Starts (l.after 0) :=
    hpath.starts (.zero (Nat.zero_lt_of_lt hb)) (Nat.lt_of_le_of_lt hp.laidOut.le hb)
  obtain ⟨hrest, -⟩ := hp.laidOut.path hwf hfits hstarts hb hlen
  exact Program.admissible_of_path (hpath.trans hrest) hp.fetch_accept hp.length_eq

theorem admissible_singleByteForm {captures : Nat} (h : ByteLoop q body i)
    (hcode : p.code = singleByteForm q body (e.code ++ Instr.accept.encode))
    (hlen : p.code.length ≤ maxCodeLength) (hwf : e.WellFormed) (hfits : e.Fits captures) :
    p.Admissible captures := by
  obtain ⟨b, hp, hafter⟩ := loopInFront_singleByteForm h hcode hlen
  refine hp.admissible hwf hfits hlen ?_
  have hbody : p.Path (p.AdmitsInside captures) 7 (7 + body.length) :=
    .one hp.fetch_body (Instr.admits_of_isSingleByte h.isSingleByte)
  have hlt : 7 + body.length < p.code.length := by
    have hle := hp.laidOut.le
    have hb := hp.length_eq
    omega
  have hzero : p.Starts 0 := .zero (Nat.zero_lt_of_lt hlt)
  have hfirst : p.Starts 7 := .next hzero hp.fetch (Nat.lt_of_le_of_lt hbody.le hlt)
  have hlength : (loopAround q true body.length).bodyLength.toNat = body.length :=
    Nat.add_left_cancel hafter
  have hloop : p.Admits captures 0 (.loop (loopAround q true body.length)) := by
    have hsingle : (loopAround q true body.length).singleByte = true := rfl
    rw [Program.Admits, Program.HasBody, if_pos hsingle, hafter, hlength]
    exact ⟨h.inOrder true _, hfirst, hbody.starts hfirst hlt, i, hp.fetch_body, h.isSingleByte⟩
  have hnot : Instr.loop (loopAround q true body.length) ≠ .accept := by simp
  rw [hafter]
  exact .more hp.fetch ⟨hloop, hnot⟩ hbody

theorem admissible_generalForm {captures : Nat} (h : ByteLoop q body i)
    (hcode : p.code = generalForm q body (e.code ++ Instr.accept.encode))
    (hlen : p.code.length ≤ maxCodeLength) (hwf : e.WellFormed) (hfits : e.Fits captures) :
    p.Admissible captures := by
  obtain ⟨b, hp, hafter, o, hend, htarget⟩ := loopInFront_generalForm h hcode hlen
  refine hp.admissible hwf hfits hlen ?_
  have hbody : p.Path (p.AdmitsInside captures) 7 (7 + body.length) :=
    .one hp.fetch_body (Instr.admits_of_isSingleByte h.isSingleByte)
  have hlt : 7 + body.length + 4 < p.code.length := by
    have hle := hp.laidOut.le
    have hb := hp.length_eq
    omega
  have hsize := Program.length_of_fetch? hp.fetch_body
  rw [hafter]
  exact Expr.path_loop (.zero (Nat.zero_lt_of_lt hlt)) hp.fetch (h.inOrder false _) rfl hbody
    (Nat.lt_add_of_pos_right hsize.1) hend htarget hafter hlt hlen

end

/-! ### Compiled patterns behind a loop -/

/-- **A loop around an instruction that consumes a byte does the same in either form.**  Let a loop
stand before the code of a compiled pattern, once in the form that runs as a whole and once in that
of any loop that commits its iterations.  Both codes can be loaded, if the captures of the pattern
are counted in.  On every input and from every offset there is one list of matches that both give to
any callback, with buffers and steps that are ample for both: with a frame more than the scratch
depth of the pattern, and as many slots for captures and steps as it takes. -/
theorem Compiler.loop_forms_agree {c : Compiler} {pattern buffer : List UInt8} {r : Regex}
    (h : c.compile pattern buffer = .ok r) {q : Quantifier} {body : List UInt8} {i : Instr}
    (hloop : ByteLoop q body i) {r₁ r₂ : Regex} (h₁ : r₁.code = singleByteForm q body r.code)
    (h₂ : r₂.code = generalForm q body r.code) :
    (r.captures ≤ r₁.captures → Regex.ofBytes r₁.toBytes = .ok r₁) ∧
    (r.captures ≤ r₂.captures → Regex.ofBytes r₂.toBytes = .ok r₂) ∧
    ∀ (input : Array UInt8) (start : Nat), ∃ found slots steps, ∀ m : Matcher,
      m.program = .ofCode r₁.code ∨ m.program = .ofCode r₂.code →
      m.Roomy (r.scratchDepth.toNat + 1) slots steps →
      ∀ {σ : Type} (f : Callback σ) (gathered : σ),
        Matcher.Gives f gathered found (m.tryMatch input start f gathered) := by
  obtain ⟨e, n, hderives, hwf, hcode, hdepth, hcaptures⟩ := c.compile_derives h
  rw [hcode] at h₁ h₂
  have hfits {r' : Regex} (hle : r.captures ≤ r'.captures) : e.Fits r'.captures.toNat := by
    have hn := hderives.captures_eq hcaptures
    have hle := UInt8.le_iff_toNat_le.1 hle
    exact hderives.fits.mono (hn ▸ hle)
  refine ⟨fun hle => Regex.ofBytes_eq_ok_iff.2 ⟨rfl, ?_⟩,
    fun hle => Regex.ofBytes_eq_ok_iff.2 ⟨rfl, ?_⟩, ?_⟩
  · exact admissible_singleByteForm hloop h₁ r₁.code_le hwf (hfits hle)
  · exact admissible_generalForm hloop h₂ r₂.code_le hwf (hfits hle)
  · intro input start
    by_cases hstart : start ≤ input.size
    · obtain ⟨slots₁, steps₁, hgives₁⟩ := Enumerates.ample hstart
        (enumerates_singleByteForm (p := .ofCode r₁.code) hloop h₁ r₁.code_le hwf hstart)
      obtain ⟨slots₂, steps₂, hgives₂⟩ := Enumerates.ample hstart
        (enumerates_generalForm (p := .ofCode r₂.code) hloop h₂ r₂.code_le hwf hstart)
      refine ⟨((i.loopPoints input q ⟨start, []⟩).flatMap (e.results input)).map
        (Point.toMatch start), Nat.max slots₁ slots₂, Nat.max steps₁ steps₂, ?_⟩
      rintro m (hm | hm) hroomy σ f gathered
      · rw [hdepth] at hroomy
        exact hgives₁ m hm (hroomy.mono (Nat.le_max_left ..) (Nat.le_max_left ..)) f gathered
      · rw [hdepth] at hroomy
        exact hgives₂ m hm (hroomy.mono (Nat.le_max_right ..) (Nat.le_max_right ..)) f gathered
    · refine ⟨[], 0, 0, ?_⟩
      intro m _ _ σ f gathered
      rw [Matcher.tryMatch, if_neg hstart]
      exact ⟨rfl, rfl⟩

/-- A loop of up to two bytes, as few as can be, before the pattern `a+`. -/
def Regex.lazyBefore (form : Quantifier → List UInt8 → List UInt8 → List UInt8)
    (h : (form ⟨1, 2, false⟩ [0xAA, 0x03] Regex.aPlus.code).length ≤ maxCodeLength) : Regex :=
  { code := form ⟨1, 2, false⟩ [0xAA, 0x03] Regex.aPlus.code
    scratchDepth := 2
    captures := 0
    loopBound := 0
    code_le := h
    loopBound_lt := Regex.aPlus.loopBound_lt }

theorem Compiler.loop_forms_agree_aPlus :
    let r₁ := Regex.lazyBefore singleByteForm (by decide)
    let r₂ := Regex.lazyBefore generalForm (by decide)
    ({} : Compiler).compile [0x61, 0x2b] (List.replicate 19 0) = .ok .aPlus ∧
      ByteLoop ⟨1, 2, false⟩ [0xAA, 0x03] .anyByte ∧
      Regex.ofBytes r₁.toBytes = .ok r₁ ∧ Regex.ofBytes r₂.toBytes = .ok r₂ ∧
      (∃ found slots steps, ∀ m : Matcher,
        m.program = .ofCode r₁.code ∨ m.program = .ofCode r₂.code → m.Roomy 2 slots steps →
        Matcher.Gives Matcher.collectAll [] found (m.enumeration #[0x61, 0x61, 0x61] 0)) ∧
      ((Matcher.ofRegex r₁ 2 0).enumeration #[0x61, 0x61, 0x61] 0).gathered =
        [⟨0, 3, []⟩, ⟨0, 2, []⟩, ⟨0, 3, []⟩] ∧
      ((Matcher.ofRegex r₂ 2 0).enumeration #[0x61, 0x61, 0x61] 0).gathered =
        [⟨0, 3, []⟩, ⟨0, 2, []⟩, ⟨0, 3, []⟩] := by
  intro r₁ r₂
  have hloop : ByteLoop ⟨1, 2, false⟩ [0xAA, 0x03] .anyByte :=
    ⟨rfl, rfl, by decide, by decide, Or.inl (by decide)⟩
  have h₁ : r₁.code = singleByteForm ⟨1, 2, false⟩ [0xAA, 0x03] Regex.aPlus.code := rfl
  have h₂ : r₂.code = generalForm ⟨1, 2, false⟩ [0xAA, 0x03] Regex.aPlus.code := rfl
  obtain ⟨hloads₁, hloads₂, hagree⟩ :=
    Compiler.loop_forms_agree Compiler.compile_aPlus hloop h₁ h₂
  obtain ⟨found, slots, steps, hgives⟩ := hagree #[0x61, 0x61, 0x61] 0
  exact ⟨Compiler.compile_aPlus, hloop, hloads₁ (by decide), hloads₂ (by decide),
    ⟨found, slots, steps, fun m hm hroomy => hgives m hm hroomy Matcher.collectAll []⟩,
    by decide +kernel, by decide +kernel⟩

end BoundedRegex
