import Mathlib.Data.List.TakeWhile
import BoundedRegex.Proofs.Code.Brackets
import BoundedRegex.Proofs.Match.History

/-!
# Frames that agree with the path

While the machine is inside a bracket, the topmost frame of that bracket is the one that was pushed
where the path has the bracket opened for the last time.

* `Program.Agrees`: at an address, at an offset and with a path, so much holds of the frames.  The
  frame of a bracket also remembers an offset that the machine has not gone back behind, and at
  which it still is only if it has slipped to where it is.
* `Entry.Agrees`: what a frame remembers, with the path to which it goes back, is where the machine
  may go on in this way on top of the frames below.
* `Program.Agrees.leads`, `enter`, `close`: the ways in which the machine comes to an address.
* `Program.Agrees.closing`, `ending`: what is found where a bracket ends.
-/

namespace BoundedRegex

/-! ### Paths -/

/-- Whether an instruction is between two addresses. -/
def Visit.within (lo last : Nat) (v : Visit) : Bool :=
  lo < v.ip && v.ip < last

/-- The offset that an entry remembers. -/
def Entry.pos : Entry → Nat
  | alternative _ pos _ | capture _ pos => pos
  | loop f => f.pos

namespace Program

/-- Whether an entry is of the bracket that opens at an address. -/
def owns (p : Program) (lo : Nat) (e : Entry) : Bool :=
  match p.fetch? lo with
  | some (.captureStart index, _) => e.opens index
  | _ => e.isOfLoop lo

/-- Whether an iteration of the loop at an address begins with an instruction, which enters the loop
or ends the iteration before. -/
def begins (p : Program) (lo : Nat) (v : Visit) : Bool :=
  v.ip = lo ||
    match p.fetch? v.ip with
    | some (.loopEnd offset, _) => offsetTarget v.ip offset = lo
    | _ => false

/-- Whether an instruction opens a capture. -/
def opens (p : Program) (index : UInt8) (v : Visit) : Bool :=
  match p.fetch? v.ip with
  | some (.captureStart i, _) => i = index
  | _ => false

/-- Whether an instruction closes a capture. -/
def closes (p : Program) (index : UInt8) (v : Visit) : Bool :=
  match p.fetch? v.ip with
  | some (.captureEnd i, _) => i = index
  | _ => false

end Program

theorem dropWhile_dropWhile {α : Type} {P Q : α → Bool} (h : ∀ x, Q x = true → P x = true)
    (xs : List α) : (xs.dropWhile Q).dropWhile P = xs.dropWhile P := by
  induction xs with
  | nil => rfl
  | cons x xs ih =>
    by_cases hx : Q x = true
    · rw [List.dropWhile_cons_of_pos hx, ih, List.dropWhile_cons_of_pos (h x hx)]
    · rw [List.dropWhile_cons_of_neg hx]

theorem find?_of_dropWhile {α : Type} {P Q : α → Bool} {xs rest : List α} {x : α}
    (h : xs.dropWhile Q = x :: rest) (hx : P x = true)
    (hnone : ∀ y ∈ xs, Q y = true → P y = false) : xs.find? P = some x := by
  induction xs with
  | nil => cases h
  | cons y ys ih =>
    by_cases hy : Q y = true
    · rw [List.dropWhile_cons_of_pos hy] at h
      rw [List.find?_cons_of_neg (by rw [hnone y List.mem_cons_self hy]; decide)]
      exact ih h fun z hz => hnone z (List.mem_cons_of_mem y hz)
    · rw [List.dropWhile_cons_of_neg hy] at h
      cases h
      exact List.find?_cons_of_pos hx

section

variable {p : Program} {a b lo last lo' last' size : Nat} {v : Visit} {path : List Visit}
  {e : Entry} {f : LoopEntry} {l : Loop}

theorem Visit.dropWhile_within_cons (hlo : lo < v.ip) (hlast : v.ip < last) :
    (v :: path).dropWhile (Visit.within lo last) = path.dropWhile (Visit.within lo last) :=
  List.dropWhile_cons_of_pos (by simp [Visit.within, hlo, hlast])

theorem Visit.dropWhile_within_of_head (h : v.within lo last = false) :
    (v :: path).dropWhile (Visit.within lo last) = v :: path :=
  List.dropWhile_cons_of_neg (by simp [h])

theorem Visit.within_mono (hlo : lo' ≤ lo) (hlast : last ≤ last') (h : v.within lo last = true) :
    v.within lo' last' = true := by
  simp only [Visit.within, Bool.and_eq_true, decide_eq_true_eq] at h ⊢
  omega

namespace Program

theorem opens_iff {index : UInt8} :
    p.opens index v = true ↔ ∃ size, p.fetch? v.ip = some (.captureStart index, size) := by
  unfold opens
  split
  · next i n hf => simp [hf]
  · next hnot => exact ⟨nofun, fun ⟨n, hf⟩ => absurd hf (hnot index n)⟩

theorem closes_iff {index : UInt8} :
    p.closes index v = true ↔ ∃ size, p.fetch? v.ip = some (.captureEnd index, size) := by
  unfold closes
  split
  · next i n hf => simp [hf]
  · next hnot => exact ⟨nofun, fun ⟨n, hf⟩ => absurd hf (hnot index n)⟩

theorem begins_of_eq (h : v.ip = lo) : p.begins lo v = true := by
  simp [begins, h]

theorem owns_loop : p.owns a (.loop f) = true → f.ip = a := by
  unfold owns
  split
  · nofun
  · exact of_decide_eq_true

theorem owns_of_loop (hf : p.fetch? a = some (.loop l, size)) : p.owns a e = e.isOfLoop a := by
  simp [owns, hf]

theorem owns_of_captureStart {index : UInt8} (hf : p.fetch? a = some (.captureStart index, size)) :
    p.owns a e = e.opens index := by
  simp [owns, hf]

theorem owns_capture {index : UInt8} {pos : Nat} (h : p.owns a (.capture index pos) = true) :
    ∃ size, p.fetch? a = some (.captureStart index, size) := by
  unfold owns at h
  split at h
  · next hf =>
    obtain rfl : index = _ := of_decide_eq_true h
    exact ⟨_, hf⟩
  · cases h

theorem owns_alternative {ip pos : Nat} {log : List Capture} :
    p.owns a (.alternative ip pos log) = false := by
  unfold owns
  split <;> rfl

namespace Bracket

/-- An entry is of one bracket. -/
theorem eq_of_owns (hb : p.Bracketed) (h : p.Bracket lo last) (ha : p.Starts a)
    (hlo : p.owns lo e = true) (hown : p.owns a e = true) : lo = a := by
  cases e with
  | alternative =>
    rw [owns_alternative] at hlo
    cases hlo
  | loop f => exact (owns_loop hlo).symm.trans (owns_loop hown)
  | capture index pos =>
    obtain ⟨size, hf⟩ := owns_capture hlo
    obtain ⟨size', hf'⟩ := owns_capture hown
    cases h with
    | loop _ hf'' => cases hf.symm.trans hf''
    | capture hstarts hf'' hlast =>
      cases hf.symm.trans hf''
      exact hb.unique (.capture hstarts hf hlast) (.capture ha hf' hlast)

/-- What opens a capture that is closed here is of no bracket around the code behind. -/
theorem not_owns {index : UInt8} (h : p.Bracket lo last) (hs : p.Structured) (ha : p.Closes index a)
    (hopens : e.opens index = true) (hlast : a < last) : p.owns lo e = false := by
  refine Bool.eq_false_iff.2 fun hown => ?_
  cases e with
  | alternative | loop => cases hopens
  | capture i start =>
    obtain rfl : i = index := of_decide_eq_true hopens
    obtain ⟨n, hopen⟩ := owns_capture hown
    cases h with
    | loop _ hf => cases hopen.symm.trans hf
    | capture _ hf hclose =>
      cases hopen.symm.trans hf
      exact Nat.ne_of_lt hlast (hs.closes ha hclose)

/-- A loop goes on behind its last instruction. -/
theorem lt_after (h : p.Bracket lo last) (hf : p.fetch? lo = some (.loop l, size)) :
    last < l.after lo := by
  cases h with
  | loop _ hf' _ hafter =>
    cases hf.symm.trans hf'
    omega
  | capture _ hf' => cases hf.symm.trans hf'

/-- A loop of which iterations are ended has a body of several instructions. -/
theorem singleByte (h : p.Bracket lo last) (hf : p.fetch? lo = some (.loop l, size)) :
    l.singleByte = false := by
  simpa [Instr.isOpening] using h.isOpening hf

/-- An iteration begins outside the loop. -/
theorem not_within (h : p.Bracket lo last) (hp : p.Sound)
    (hf : p.fetch? lo = some (.loop l, size)) (hv : p.Starts v.ip)
    (hbegins : p.begins lo v = true) : v.within lo last = false := by
  have hafter : l.after lo = last + 4 := by
    cases h with
    | loop _ hf' _ hafter =>
      cases hf.symm.trans hf'
      exact hafter
    | capture _ hf' => cases hf.symm.trans hf'
  simp only [begins, Bool.or_eq_true, decide_eq_true_eq] at hbegins
  simp only [Visit.within, Bool.and_eq_false_iff, decide_eq_false_iff_not, Nat.not_lt]
  rcases hbegins with heq | hend
  · exact Or.inl (Nat.le_of_eq heq)
  · split at hend
    · next offset n hfetch =>
      have htarget : offsetTarget v.ip offset = lo := of_decide_eq_true hend
      obtain ⟨l', n', -, hf', -, hafter'⟩ := hp.loopEnd hv hfetch
      rw [htarget] at hf' hafter'
      cases hf.symm.trans hf'
      omega
    · cases hend

end Bracket

end Program

end

/-! ### Agreement -/

/-- Where the machine is, and with what path, agrees with the frames: for each bracket around the
address, the topmost frame of it was pushed where the path has the bracket opened. -/
structure Program.Agrees (p : Program) (a pos : Nat) (path : List Visit) (frames : List Traced) :
    Prop where
  starts : p.Starts a
  visited : ∀ v ∈ path, p.Starts v.ip
  opened {lo last : Nat} (h : p.Bracket lo last) (hlo : lo < a) (hlast : a ≤ last) :
    ∃ e o, frames.find? (fun t => p.owns lo t.1) = some (e, o) ∧
      o.path = path.dropWhile (Visit.within lo last) ∧ e.pos ≤ pos ∧ (e.pos = pos → p.Slips lo a)

/-- What the entry of the loop `l` remembers agrees with where it comes from and with the frames
below. -/
structure LoopEntry.Agrees (p : Program) (l : Loop) (below : List Traced) (o : Origin)
    (f : LoopEntry) : Prop where
  /-- The loop may be entered again. -/
  entered : p.Agrees f.ip f.start o.entry below
  /-- It may iterate once more. -/
  here : p.Agrees f.ip f.pos o.path below
  /-- It may be left, if it has iterated often enough. -/
  left (hsingle : l.singleByte = false) (hmin : l.min.toNat ≤ f.count) :
    p.Agrees (l.after f.ip) f.pos o.path below
  /-- The frame was pushed where an iteration began. -/
  pushed : ∃ u rest, o.entry = u :: rest ∧ u.time = o.time ∧ u.pos = f.start ∧
    p.begins f.ip u = true ∧ (l.keepsFrames = false → u.ip = f.ip)
  /-- The path to which it goes back ends where an iteration begins. -/
  current : ∃ u rest, o.path = u :: rest ∧ u.pos = f.pos ∧ p.begins f.ip u = true
  kept : l.keepsFrames = true → o.path = o.entry ∧ (f.phase = .boundary ∨ f.phase = .counter)
  /-- What has been committed is inside the loop. -/
  committed : l.keepsFrames = false → o.entry = o.path.dropWhile (Visit.within f.ip (l.after f.ip))
  bytes : l.singleByte = true → o.path = o.entry ∧ l.min.toNat ≤ f.count ∧
    (l.greedy = true → l.min.toNat < f.count)
  boundary : f.phase = .boundary → l.singleByte = false ∧ l.min.toNat ≤ f.count
  active : f.phase ≠ .stalled

/-- What an entry remembers agrees with where it comes from and with the frames below. -/
def Entry.Agrees (p : Program) (below : List Traced) (o : Origin) : Entry → Prop
  | alternative ip pos _ => p.Agrees ip pos o.path below
  | capture index pos => ∃ lo size rest, p.Starts lo ∧
      p.fetch? lo = some (.captureStart index, size) ∧ o.path = ⟨o.time, lo, pos⟩ :: rest
  | loop f => ∃ l size, p.fetch? f.ip = some (.loop l, size) ∧ f.Agrees p l below o

/-- Each frame agrees with those below it. -/
def FramesAgree (p : Program) : List Traced → Prop
  | [] => True
  | (e, o) :: below => e.Agrees p below o ∧ FramesAgree p below

variable {p : Program} {a b pos pos' lo last size : Nat} {path path' : List Visit}
  {frames below : List Traced} {t : Traced} {e : Entry} {o : Origin} {f : LoopEntry} {l : Loop}
  {i : Instr}

namespace FramesAgree

theorem of_suffix {S : List Traced} (h : FramesAgree p frames) (hS : S <:+ frames) :
    FramesAgree p S := by
  induction frames with
  | nil =>
    rw [List.suffix_nil.1 hS]
    trivial
  | cons t rest ih =>
    rcases List.suffix_cons_iff.1 hS with rfl | hS
    · exact h
    · exact ih h.2 hS

/-- A frame that is looked for agrees with those below it. -/
theorem of_find? {P : Entry → Bool} (h : FramesAgree p frames)
    (hfind : frames.find? (fun t => P t.1) = some (e, o)) :
    P e = true ∧ ∃ below,
      frames.dropWhile (fun t => !P t.1) = (e, o) :: below ∧ e.Agrees p below o := by
  refine ⟨(List.find?_some hfind :), ?_⟩
  rw [List.find?_eq_head?_dropWhile_not] at hfind
  obtain ⟨below, hdrop⟩ := List.head?_eq_some_iff.1 hfind
  have hsuffix : (e, o) :: below <:+ frames := hdrop ▸ List.dropWhile_suffix _
  exact ⟨below, hdrop, (h.of_suffix hsuffix).1⟩

end FramesAgree

namespace Program.Agrees

/-- Elsewhere, where the brackets around the address are around this one too, and the path has them
opened in the same places. -/
theorem transfer (h : p.Agrees a pos path frames) (hb : p.Starts b)
    (hvisited : ∀ v ∈ path', p.Starts v.ip) (hpos : pos ≤ pos')
    (hall : ∀ {lo last : Nat}, p.Bracket lo last → lo < b → b ≤ last →
      (lo < a ∧ a ≤ last) ∧
        path'.dropWhile (Visit.within lo last) = path.dropWhile (Visit.within lo last) ∧
        (pos = pos' → p.Slips lo a → p.Slips lo b)) :
    p.Agrees b pos' path' frames := by
  refine ⟨hb, hvisited, fun hbracket hlo hlast => ?_⟩
  obtain ⟨⟨hlo', hlast'⟩, hpath, hslips⟩ := hall hbracket hlo hlast
  obtain ⟨e, o, hfind, ho, hle, hfresh⟩ := h.opened hbracket hlo' hlast'
  exact ⟨e, o, hfind, ho.trans hpath.symm, Nat.le_trans hle hpos,
    fun heq => hslips (by omega) (hfresh (by omega))⟩

/-- With a frame more that is of no bracket around the address. -/
theorem push (h : p.Agrees a pos path frames)
    (he : ∀ {lo last : Nat}, p.Bracket lo last → lo < a → a ≤ last → p.owns lo t.1 = false) :
    p.Agrees a pos path (t :: frames) := by
  refine { h with opened := fun hbracket hlo hlast => ?_ }
  rw [List.find?_cons_of_neg (by rw [he hbracket hlo hlast]; decide)]
  exact h.opened hbracket hlo hlast

/-- Without such a frame. -/
theorem pop (h : p.Agrees a pos path (t :: frames))
    (he : ∀ {lo last : Nat}, p.Bracket lo last → lo < a → a ≤ last → p.owns lo t.1 = false) :
    p.Agrees a pos path frames := by
  refine { h with opened := fun hbracket hlo hlast => ?_ }
  have hfound := h.opened hbracket hlo hlast
  rw [List.find?_cons_of_neg (by rw [he hbracket hlo hlast]; decide)] at hfound
  exact hfound

/-- On top of an entry of a loop, behind the loop. -/
theorem push_behind (h : p.Agrees (l.after f.ip) pos path frames)
    (hf : p.fetch? f.ip = some (.loop l, size)) :
    p.Agrees (l.after f.ip) pos path ((.loop f, o) :: frames) := by
  refine h.push fun {lo last} hbracket hlo hlast => Bool.eq_false_iff.2 fun hown => ?_
  obtain rfl : f.ip = lo := owns_loop hown
  exact absurd (hbracket.lt_after hf) (Nat.not_lt.2 hlast)

/-- With the instruction at the address in the path, unless it ends a bracket. -/
theorem visit (h : p.Agrees a pos path frames) (hf : p.fetch? a = some (i, size))
    (hi : i.isClosing = false) (time : Nat) : p.Agrees a pos (⟨time, a, pos⟩ :: path) frames := by
  refine h.transfer h.starts (List.forall_mem_cons.2 ⟨h.starts, h.visited⟩) (Nat.le_refl pos)
    fun {lo last} hbracket hlo hlast => ⟨⟨hlo, hlast⟩, ?_, fun _ hslips => hslips⟩
  have hne : a ≠ last := by
    rintro rfl
    rw [hbracket.isClosing hf] at hi
    cases hi
  exact Visit.dropWhile_within_cons hlo (Nat.lt_of_le_of_ne hlast hne)

section

variable (hb : p.Bracketed)
include hb

/-- Where an instruction leads, unless that is into its own bracket. -/
theorem leads (h : p.Agrees a pos path frames) (hflow : p.Flows a b) (hstarts : p.Starts b)
    (hown : ∀ {last : Nat}, p.Bracket a last → last < b) (hvisited : ∀ v ∈ path', p.Starts v.ip)
    (hpath : ∀ {lo last : Nat}, p.Bracket lo last → lo < a → a < last →
      path'.dropWhile (Visit.within lo last) = path.dropWhile (Visit.within lo last))
    (hpos : pos ≤ pos')
    (hslips : ∀ {lo last : Nat}, p.Bracket lo last → lo < a → a ≤ last → pos = pos' →
      p.Slips lo a → p.Slips lo b) : p.Agrees b pos' path' frames := by
  refine h.transfer hstarts hvisited hpos fun {lo last} hbracket hlo hlast => ?_
  obtain ⟨hle, hlt⟩ := hb.enters h.starts hflow hbracket hlo hlast
  have hlo' : lo < a := by
    refine Nat.lt_of_le_of_ne hle ?_
    rintro rfl
    exact absurd (hown hbracket) (Nat.not_lt.2 hlast)
  exact ⟨⟨hlo', Nat.le_of_lt hlt⟩, hpath hbracket hlo' hlt,
    hslips hbracket hlo' (Nat.le_of_lt hlt)⟩

/-- Where an instruction slips to, unless that is into its own bracket. -/
theorem slip (h : p.Agrees a pos path frames) (hslip : p.Slip a b) (hstarts : p.Starts b)
    (hown : ∀ {last : Nat}, p.Bracket a last → last < b) : p.Agrees b pos path frames :=
  h.leads hb hslip.flows hstarts hown h.visited (fun _ _ _ => rfl) (Nat.le_refl pos)
    fun _ _ _ _ hslips => hslips.step hslip

/-- Where an instruction leads with something consumed. -/
theorem consume (h : p.Agrees a pos path frames) (hflow : p.Flows a b) (hstarts : p.Starts b)
    (hown : ∀ {last : Nat}, p.Bracket a last → last < b) (hpos : pos < pos') :
    p.Agrees b pos' path frames :=
  h.leads hb hflow hstarts hown h.visited (fun _ _ _ => rfl) (Nat.le_of_lt hpos)
    fun _ _ _ heq => absurd heq (Nat.ne_of_lt hpos)

/-- Where an instruction leads that ends a bracket. -/
theorem close (h : p.Agrees a pos path frames) (hf : p.fetch? a = some (i, size))
    (hi : i.isOpening = false) (hflow : p.Flows a b) (hstarts : p.Starts b) (time : Nat)
    (hslips : ∀ {lo last : Nat}, p.Bracket lo last → lo < a → a ≤ last → p.Slips lo a →
      p.Slips lo b) : p.Agrees b pos (⟨time, a, pos⟩ :: path) frames := by
  refine h.leads hb hflow hstarts (fun hbracket => ?_)
    (List.forall_mem_cons.2 ⟨h.starts, h.visited⟩)
    (fun _ => Visit.dropWhile_within_cons (v := ⟨time, a, pos⟩)) (Nat.le_refl pos)
    fun hbracket hlo hlast _ => hslips hbracket hlo hlast
  rw [hbracket.isOpening hf] at hi
  cases hi

/-- Inside a bracket, on top of a frame that has just been pushed for it. -/
theorem enter (h : p.Agrees a pos path frames) (hf : p.fetch? a = some (i, size))
    (hi : i.isPassed = true) (hstarts : p.Starts (a + size)) (hown : p.owns a e = true)
    (hpos : e.pos = pos) (ho : o.path = path)
    (hhead : ∀ {last : Nat}, p.Bracket a last →
      path.dropWhile (Visit.within a last) = path) :
    p.Agrees (a + size) pos path ((e, o) :: frames) := by
  refine ⟨hstarts, h.visited, fun {lo last} hbracket hlo hlast => ?_⟩
  have hslip := Slip.next h.starts hf hi
  obtain ⟨hle, hlt⟩ := hb.enters h.starts hslip.flows hbracket hlo hlast
  rcases Nat.eq_or_lt_of_le hle with rfl | hlo'
  · exact ⟨e, o, List.find?_cons_of_pos hown, ho.trans (hhead hbracket).symm, Nat.le_of_eq hpos,
      fun _ => .step .refl hslip⟩
  · -- Around that is another bracket, with a frame of its own.
    obtain ⟨e', o', hfind, ho', hle', hslips⟩ := h.opened hbracket hlo' (Nat.le_of_lt hlt)
    refine ⟨e', o', ?_, ho', hle', fun heq => (hslips heq).step hslip⟩
    have hother : ¬p.owns lo e = true := fun hown' =>
      Nat.ne_of_lt hlo' (hbracket.eq_of_owns hb h.starts hown' hown)
    exact (List.find?_cons_of_neg (a := (e, o)) hother).trans hfind

/-- Behind a loop that need not iterate. -/
theorem skip (h : p.Agrees a pos path frames) (hp : p.Sound)
    (hf : p.fetch? a = some (.loop l, size)) (hmin : l.min.toNat = 0) :
    p.Agrees (l.after a) pos path frames := by
  have hzero : l.min = 0 := UInt8.toNat_inj.1 hmin
  refine h.slip hb (.target h.starts hf rfl List.mem_cons_self ?_) (hp.loop h.starts hf).2.1
    fun hbracket => hbracket.lt_after hf
  rintro _ ⟨⟩
  exact hzero

/-- Behind a loop that has consumed something, if it had to iterate. -/
theorem after_bytes (h : p.Agrees a pos path frames) (hp : p.Sound)
    (hf : p.fetch? a = some (.loop l, size)) {count : Nat} (hmin : l.min.toNat ≤ count) :
    p.Agrees (l.after a) (pos + count) path frames := by
  rcases Nat.eq_zero_or_pos count with rfl | hcount
  · exact h.skip hb hp hf (Nat.le_zero.1 hmin)
  · exact h.consume hb ⟨.loop l, size, hf, Or.inr List.mem_cons_self⟩ (hp.loop h.starts hf).2.1
      (fun hbracket => hbracket.lt_after hf) (Nat.lt_add_of_pos_right hcount)

end

end Program.Agrees

namespace LoopEntry.Agrees

/-- The entry of a loop that is pushed where an iteration begins. -/
theorem entering {u : Visit} (h : p.Agrees a pos (u :: path) frames) {phase : LoopPhase}
    {log : List Capture} {count : Nat} (hpos : u.pos = pos) (hbegins : p.begins a u = true)
    (hip : l.keepsFrames = false → u.ip = a)
    (hleft : l.singleByte = false → l.min.toNat ≤ count →
      p.Agrees (l.after a) pos (u :: path) frames)
    (hkept : l.keepsFrames = true → phase = .boundary ∨ phase = .counter)
    (hbytes : l.singleByte = true → l.min.toNat ≤ count ∧ (l.greedy = true → l.min.toNat < count))
    (hboundary : phase = .boundary → l.singleByte = false ∧ l.min.toNat ≤ count)
    (hactive : phase ≠ .stalled) :
    LoopEntry.Agrees p l frames { time := u.time, entry := u :: path, path := u :: path }
      { ip := a, phase, pos, log, start := pos, startLog := log, count } where
  entered := h
  here := h
  left := hleft
  pushed := ⟨u, path, rfl, rfl, hpos, hbegins, hip⟩
  current := ⟨u, path, rfl, hpos, hbegins⟩
  kept := fun hk => ⟨rfl, hkept hk⟩
  committed := fun hk => (Visit.dropWhile_within_of_head (by simp [Visit.within, hip hk])).symm
  bytes := fun hsingle => ⟨rfl, hbytes hsingle⟩
  boundary := hboundary
  active := hactive

section

variable (h : f.Agrees p l below o)
include h

/-- The loop is left, with its entry on top. -/
theorem behind (hf : p.fetch? f.ip = some (.loop l, size)) (hsingle : l.singleByte = false)
    (hmin : l.min.toNat ≤ f.count) :
    p.Agrees (l.after f.ip) f.pos o.path ((.loop f, o) :: below) :=
  (h.left hsingle hmin).push_behind hf

variable (hb : p.Bracketed) (hp : p.Sound) (hf : p.fetch? f.ip = some (.loop l, size))
include hb hp hf

/-- The loop iterates, with its entry on top. -/
theorem body :
    p.Agrees (Loop.body f.ip) f.pos o.path ((.loop f, o) :: below) := by
  have hbody : Loop.body f.ip = f.ip + size := by rw [Program.size_of_loop hf, Loop.body]
  have hstarts := (hp.loop h.here.starts hf).1
  rw [hbody] at hstarts ⊢
  refine h.here.enter hb hf rfl hstarts ?_ rfl rfl fun hbracket => ?_
  · rw [Program.owns_of_loop hf]
    exact decide_eq_true rfl
  · obtain ⟨u, rest, hpath, -, hbegins⟩ := h.current
    have hu : p.Starts u.ip := h.here.visited u (hpath ▸ List.mem_cons_self)
    rw [hpath]
    exact Visit.dropWhile_within_of_head (hbracket.not_within hp hf hu hbegins)

/-- The entry of a loop that starts all over again. -/
theorem restart (hk : l.keepsFrames = false)
    (hsingle : l.singleByte = false) {phase : LoopPhase} (hboundary : phase ≠ .boundary)
    (hactive : phase ≠ .stalled) :
    LoopEntry.Agrees p l below { o with path := o.entry }
      { f with phase, count := 0, pos := f.start, log := f.startLog } := by
  obtain ⟨u, rest, hentry, htime, hpos, hbegins, hip⟩ := h.pushed
  exact {
    entered := h.entered
    here := h.entered
    left := fun _ hmin => h.entered.skip hb hp hf (Nat.le_zero.1 hmin)
    pushed := h.pushed
    current := ⟨u, rest, hentry, hpos, hbegins⟩
    kept := fun hk' => by simp [hk] at hk'
    committed := fun _ => by
      rw [hentry]
      exact (Visit.dropWhile_within_of_head (by simp [Visit.within, hip hk])).symm
    bytes := fun hsingle' => by simp [hsingle] at hsingle'
    boundary := fun hphase => absurd hphase hboundary
    active := hactive }

end

/-- The entry at another phase, in which it offers nothing but to be left or to iterate. -/
theorem rephase (h : f.Agrees p l below o) {phase : LoopPhase}
    (hkept : l.keepsFrames = true → phase = .counter) (hboundary : phase ≠ .boundary)
    (hactive : phase ≠ .stalled) : LoopEntry.Agrees p l below o { f with phase } :=
  { h with
    kept := fun hk => ⟨(h.kept hk).1, Or.inr (hkept hk)⟩
    boundary := fun hphase => absurd hphase hboundary
    active := hactive }

/-! #### Committing an iteration -/

section

variable (h : f.Agrees p l below o) (hb : p.Bracketed) (hbracket : p.Bracket f.ip a)
  (hpath : o.path = path.dropWhile (Visit.within f.ip a))

include hpath in
/-- What an iteration has executed is inside the loop, so to the code around it the path is as it
was when the iteration began. -/
theorem dropWhile_commit {time : Nat} (hlo : lo ≤ f.ip) (hlt : f.ip < a) (hlast : a < last) :
    ((⟨time, a, pos⟩ : Visit) :: path).dropWhile (Visit.within lo last) =
      o.path.dropWhile (Visit.within lo last) := by
  rw [hpath, dropWhile_dropWhile fun v => Visit.within_mono hlo (Nat.le_of_lt hlast)]
  exact Visit.dropWhile_within_cons (v := ⟨time, a, pos⟩) (Nat.lt_of_le_of_lt hlo hlt) hlast

variable (hp : p.Sound) (hf : p.fetch? f.ip = some (.loop l, size))
  (hagrees : p.Agrees a pos path frames) (hpos : f.pos < pos)
include h hb hbracket hpath hp hf hagrees hpos

/-- Where an iteration that is committed ends, the loop may be left. -/
theorem commit_left (time : Nat) :
    p.Agrees (l.after f.ip) pos (⟨time, a, pos⟩ :: path) below :=
  h.here.leads hb ⟨.loop l, size, hf, Or.inr List.mem_cons_self⟩ (hp.loop h.here.starts hf).2.1
    (fun hbracket' => hbracket'.lt_after hf)
    (List.forall_mem_cons.2 ⟨hagrees.starts, hagrees.visited⟩)
    (fun hbracket' hlo hlast => dropWhile_commit hpath (Nat.le_of_lt hlo) (hb.lt hbracket)
      (hb.nested hbracket' hbracket hlo (Nat.le_of_lt hlast)))
    (Nat.le_of_lt hpos) fun _ _ _ heq => absurd heq (Nat.ne_of_lt hpos)

/-- The entry of a loop with an iteration more. -/
theorem commit {time : Nat} (hbegins : p.begins f.ip ⟨time, a, pos⟩ = true)
    (hk : l.keepsFrames = false) {phase : LoopPhase} {log : List Capture}
    (hphase : phase = f.phase ∨ phase = .exited) :
    LoopEntry.Agrees p l below { o with path := ⟨time, a, pos⟩ :: path }
      { f with phase, count := f.count + 1, pos, log } where
  entered := h.entered
  here := h.here.transfer h.here.starts
    (List.forall_mem_cons.2 ⟨hagrees.starts, hagrees.visited⟩) (Nat.le_of_lt hpos)
    fun hbracket' hlo hlast => ⟨⟨hlo, hlast⟩,
      dropWhile_commit hpath (Nat.le_of_lt hlo) (hb.lt hbracket)
        (hb.nested hbracket' hbracket hlo hlast),
      fun heq => absurd heq (Nat.ne_of_lt hpos)⟩
  left := fun _ _ => h.commit_left hb hbracket hpath hp hf hagrees hpos time
  pushed := h.pushed
  current := ⟨⟨time, a, pos⟩, path, rfl, rfl, hbegins⟩
  kept := fun hk' => by simp [hk] at hk'
  committed := fun _ => (h.committed hk).trans
    (dropWhile_commit hpath (Nat.le_refl f.ip) (hb.lt hbracket) (hbracket.lt_after hf)).symm
  bytes := fun hsingle => by simp [hbracket.singleByte hf] at hsingle
  boundary := fun hboundary => by
    rcases hphase with rfl | rfl
    · exact (h.boundary hboundary).imp_right fun hmin => Nat.le_succ_of_le hmin
    · cases hboundary
  active := fun hstalled => by
    rcases hphase with rfl | rfl
    · exact h.active hstalled
    · cases hstalled

end

end LoopEntry.Agrees

/-! ### Where a bracket ends -/

/-- At the end of an iteration, the path tells where that has begun, and where the frame of the loop
was pushed: at the same place, if the loop keeps frames, and otherwise where it was entered. -/
theorem LoopEntry.Agrees.began (h : f.Agrees p l below o) (hp : p.Sound)
    (hf : p.fetch? f.ip = some (.loop l, size)) (hbracket : p.Bracket f.ip a)
    (hvisited : ∀ v ∈ path, p.Starts v.ip)
    (hpath : o.path = path.dropWhile (Visit.within f.ip a)) :
    ∃ u, path.find? (p.begins f.ip) = some u ∧ f.pos = u.pos ∧
      (l.keepsFrames = true → o.time = u.time) ∧
      (l.keepsFrames = false → ∃ v, path.find? (fun w => w.ip = f.ip) = some v ∧
        f.start = v.pos ∧ o.time = v.time) := by
  obtain ⟨u, rest, hu, hpos, hbegins⟩ := h.current
  obtain ⟨v, rest', hv, htime, hstart, -, hip⟩ := h.pushed
  have hfind : path.find? (p.begins f.ip) = some u := by
    refine find?_of_dropWhile (hpath.symm.trans hu) hbegins fun w hw hwithin =>
      Bool.eq_false_iff.2 fun hw' => ?_
    rw [hbracket.not_within hp hf (hvisited w hw) hw'] at hwithin
    cases hwithin
  refine ⟨u, hfind, hpos.symm, fun hk => ?_, fun hk => ?_⟩
  · have heq : u :: rest = v :: rest' := hu.symm.trans ((h.kept hk).1.trans hv)
    rw [← htime, (List.cons.inj heq).1]
  · have hentry : path.dropWhile (Visit.within f.ip (l.after f.ip)) = v :: rest' := by
      rw [← hv, h.committed hk, hpath, dropWhile_dropWhile fun w =>
        Visit.within_mono (Nat.le_refl f.ip) (Nat.le_of_lt (hbracket.lt_after hf))]
    refine ⟨v, find?_of_dropWhile hentry (decide_eq_true (hip hk)) fun w _ hwithin => ?_,
      hstart.symm, htime.symm⟩
    refine decide_eq_false fun heq => ?_
    simp [Visit.within, heq] at hwithin

namespace Program.Agrees

variable (h : p.Agrees a pos path frames) (hframes : FramesAgree p frames) (hb : p.Bracketed)
include h hframes hb

/-- **Where a capture is closed**, the topmost frame of it was pushed where the path has opened the
capture, and it has not closed it since. -/
theorem closing (hs : p.Structured) {index : UInt8}
    (hend : p.fetch? a = some (.captureEnd index, size)) :
    ∃ v o below, frames.dropWhile (fun t => !t.1.opens index) = (.capture index v.pos, o) :: below ∧
      o.time = v.time ∧ p.opens index v = true ∧
      path.find? (fun w => p.opens index w || p.closes index w) = some v := by
  obtain ⟨lo, n, hbracket, hopen⟩ := hb.opened ⟨h.starts, size, hend⟩
  obtain ⟨e, o, hfind, hpath, -, -⟩ := h.opened hbracket (hb.lt hbracket) (Nat.le_refl a)
  simp only [Program.owns_of_captureStart hopen] at hfind
  obtain ⟨hopens, below, hdrop, hentry⟩ := hframes.of_find? hfind
  cases e with
  | alternative | loop => cases hopens
  | capture i start =>
    obtain rfl : i = index := of_decide_eq_true hopens
    obtain ⟨lo', n', rest, hstarts', hopen', ho⟩ := hentry
    obtain rfl : lo = lo' := hbracket.eq_of_owns hb hstarts'
      (by rw [owns_of_captureStart hopen]; exact hopens)
      (by rw [owns_of_captureStart hopen']; exact hopens)
    have hv : p.opens i ⟨o.time, lo, start⟩ = true := opens_iff.2 ⟨n, hopen⟩
    refine ⟨⟨o.time, lo, start⟩, o, below, hdrop, rfl, hv,
      find?_of_dropWhile (hpath.symm.trans ho) (Bool.or_eq_true_iff.2 (Or.inl hv))
        fun w hw hwithin => Bool.eq_false_iff.2 fun hw' => ?_⟩
    -- Inside the capture, none of the same number is opened or closed.
    rcases Bool.or_eq_true_iff.1 hw' with hw' | hw'
    · obtain ⟨m, hopen''⟩ := opens_iff.1 hw'
      have heq : lo = w.ip := hbracket.eq_of_owns hb (h.visited w hw)
        (by rw [owns_of_captureStart hopen]; exact hopens)
        (by rw [owns_of_captureStart hopen'']; exact hopens)
      simp [Visit.within, heq] at hwithin
    · have heq : w.ip = a :=
        hs.closes ⟨h.visited w hw, closes_iff.1 hw'⟩ ⟨h.starts, size, hend⟩
      simp [Visit.within, heq] at hwithin

/-- **Where an iteration ends**, the topmost frame of the loop was pushed, or changed for the last
time, where the path has the iteration begin, and something has been consumed since then. -/
theorem ending (hp : p.Sound) {offset : Int16} (hend : p.fetch? a = some (.loopEnd offset, size)) :
    ∃ l n f o below, p.fetch? f.ip = some (.loop l, n) ∧ f.ip = offsetTarget a offset ∧
      p.Bracket f.ip a ∧
      frames.dropWhile (fun t => !t.1.isOfLoop (offsetTarget a offset)) = (.loop f, o) :: below ∧
      f.Agrees p l below o ∧ o.path = path.dropWhile (Visit.within f.ip a) ∧ f.pos < pos := by
  obtain ⟨l, n, hstarts, hf, hsingle, hafter⟩ := hp.loopEnd h.starts hend
  have hbracket : p.Bracket (offsetTarget a offset) a := .loop hstarts hf hsingle hafter hend
  have hlt := hb.lt hbracket
  obtain ⟨e, o, hfind, hpath, hle, hslips⟩ := h.opened hbracket hlt (Nat.le_refl a)
  simp only [Program.owns_of_loop hf] at hfind
  obtain ⟨hof, below, hdrop, hentry⟩ := hframes.of_find? hfind
  cases e with
  | alternative | capture => cases hof
  | loop f =>
    obtain ⟨l', n', hf', hentry⟩ := hentry
    have hip : f.ip = offsetTarget a offset := of_decide_eq_true hof
    rw [← hip] at hf hbracket hpath hlt
    cases hf.symm.trans hf'
    have hne : f.pos ≠ pos := fun heq =>
      hb.not_slips hbracket hf hbracket hlt (Nat.le_refl a) (hip ▸ hslips heq)
    exact ⟨l, n, f, o, below, hf, hip, hbracket, hdrop, hentry, hpath,
      Nat.lt_of_le_of_ne hle hne⟩

end Program.Agrees

end BoundedRegex
