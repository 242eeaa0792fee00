import BoundedRegex.Proofs.Code.Closing
import BoundedRegex.Proofs.Match.Safety

/-!
# Regular configurations

Where the code of an expression is run, each loop that commits its iterations has an entry that is
underway as long as the machine is inside the loop.  So such a loop goes back to its body only while
its bound allows it, and what it closes inside a loop that iterates once is closed once.

* `Program.Recorded`: what a log may hold at an address.  A capture that is fixed has one record at
  most, and none before the machine is behind the instruction that closes it.
* `Config.Regular`: at each address to which the machine may go back, and with the log that it then
  has, so much holds.
* `Config.regular_step`: a step from a regular configuration leads to a regular one.
-/

namespace BoundedRegex

/-! ### Bounds -/

namespace Loop

variable {l : Loop} {n k : Nat}

/-- Whether so many iterations are within the bound. -/
def Allows (l : Loop) (count : Nat) : Prop :=
  l.max = unboundedCount ∨ count ≤ l.max.toNat

theorem allowsMore_iff : l.allowsMore n = true ↔ l.Allows (n + 1) := by
  simp only [allowsMore, Bool.or_eq_true, decide_eq_true_eq, Allows, Nat.succ_le_iff]

theorem Allows.mono (h : l.Allows n) (hkn : k ≤ n) : l.Allows k :=
  h.imp_right (Nat.le_trans hkn)

theorem Allows.one_lt_max (h : l.Allows n) (hn : 1 < n) : 1 < l.max := by
  rcases h with h | h
  · rw [h]
    decide
  · exact UInt8.lt_iff_toNat_lt.2 (Nat.lt_of_lt_of_le hn h)

theorem InOrder.allows_min (h : l.InOrder) : l.Allows l.min.toNat :=
  h.min_le_max.imp_right UInt8.le_iff_toNat_le.1

theorem InOrder.allows_one (h : l.InOrder) : l.Allows 1 :=
  Or.inr (Nat.pos_of_ne_zero fun hzero => h.max_ne_zero (UInt8.toNat_inj.1 hzero))

end Loop

/-! ### Logs -/

/-- What a log may hold when the machine is at an address. -/
structure Program.Recorded (p : Program) (a : Nat) (log : List Capture) : Prop where
  /-- What has a record is closed somewhere. -/
  closes : ∀ c ∈ log, ∃ x, p.Closes c.index x
  /-- A fixed capture has one record at most. -/
  once {index : UInt8} (h : p.Fixed index) : log.countP (fun c => c.index = index) ≤ 1
  /-- It has none before it has been closed. -/
  behind {c : Capture} (hc : c ∈ log) (h : p.Fixed c.index) {x : Nat} (hx : p.Closes c.index x) :
    x < a

namespace Program.Recorded

variable {p : Program} {a b : Nat} {log : List Capture}

theorem nil (p : Program) (a : Nat) : p.Recorded a [] :=
  ⟨nofun, fun _ => Nat.zero_le 1, nofun⟩

/-- Further on in the code, with the same log. -/
theorem mono (h : p.Recorded a log) (hab : a ≤ b) : p.Recorded b log :=
  { h with behind := fun hc hfixed _ hx => Nat.lt_of_lt_of_le (h.behind hc hfixed hx) hab }

/-- Back at a loop that may iterate more than once, in which no fixed capture is closed. -/
theorem back {c size : Nat} {l : Loop} (h : p.Recorded a log) (hc : p.Starts c)
    (hf : p.fetch? c = some (.loop l, size)) (hl : 1 < l.max) (ha : a ≤ l.after c) :
    p.Recorded c log := by
  refine { h with behind := fun hmem hfixed x hx => Nat.lt_of_not_le fun hle => ?_ }
  have hlt := h.behind hmem hfixed hx
  have hle' := hx.add_le hc hf nofun hle
  have hsize := Program.length_of_fetch? hf
  exact hfixed x hx c l ⟨hc, ⟨size, hf⟩, by omega, by omega⟩ hl

/-- Behind the instruction that closes a capture, with a record of it. -/
theorem close {i : UInt8} (h : p.Recorded a log) (hs : p.Structured) (ha : p.Closes i a)
    (hab : a < b) (start stop : Nat) : p.Recorded b (log ++ [⟨i, start, stop⟩]) := by
  refine ⟨fun c hc => ?_, fun {j} hfixed => ?_, fun {c} hc hfixed x hx => ?_⟩
  · rcases List.mem_append.1 hc with hc | hc
    · exact h.closes c hc
    · rw [List.mem_singleton.1 hc]
      exact ⟨a, ha⟩
  · by_cases hij : i = j
    · subst hij
      -- The capture is closed here, so it has no record yet.
      have hnone : log.countP (fun c => c.index = i) = 0 := by
        refine List.countP_eq_zero.2 fun c hc hci => ?_
        obtain rfl : c.index = i := of_decide_eq_true hci
        exact Nat.lt_irrefl a (h.behind hc hfixed ha)
      rw [List.countP_append, hnone, List.countP_singleton, Nat.zero_add]
      split <;> omega
    · have hnot : ([⟨i, start, stop⟩] : List Capture).countP (fun c => c.index = j) = 0 := by
        simp [hij]
      rw [List.countP_append, hnot]
      exact h.once hfixed
  · rcases List.mem_append.1 hc with hc | hc
    · exact Nat.lt_trans (h.behind hc hfixed hx) hab
    · rw [List.mem_singleton.1 hc] at hx
      exact hs.closes ha hx ▸ hab

end Program.Recorded

/-! ### Entries -/

/-- A loop is in an iteration that its bound allows. -/
def LoopEntry.Underway (l : Loop) (f : LoopEntry) : Prop :=
  (f.phase = .iterating ∧ l.Allows (f.count + 1)) ∨
    ∃ target, f.phase = .replaying target ∧ f.count < target ∧ l.Allows (target + 1)

/-- What the entry of a loop may be at, by the kind of the loop: between iterations that keep their
frames, behind a run of bytes, in an iteration, or behind the loop. -/
inductive LoopEntry.InPhase (l : Loop) (f : LoopEntry) : Prop where
  | kept (hk : l.keepsFrames = true) (h : f.phase = .boundary ∨ f.phase = .counter)
      (hcount : l.Allows (f.count + 1))
  | bytes (hk : l.keepsFrames = false) (hsingle : l.singleByte = true) (h : f.phase = .exited)
  | underway (hk : l.keepsFrames = false) (hsingle : l.singleByte = false) (h : f.Underway l)
  | left (hk : l.keepsFrames = false) (hsingle : l.singleByte = false)
      (h : f.phase = .exited ∨ f.phase = .stalled) (hcount : l.Allows f.count)

/-- Only the entry of a loop that keeps frames is between two iterations. -/
theorem LoopEntry.InPhase.of_boundary {l : Loop} {f : LoopEntry} (h : f.InPhase l)
    (hphase : f.phase = .boundary) : l.keepsFrames = true ∧ l.Allows (f.count + 1) := by
  rcases h with ⟨hk, -, hcount⟩ | ⟨-, -, hexited⟩ | ⟨-, -, hunderway⟩ | ⟨-, -, hleft, -⟩
  · exact ⟨hk, hcount⟩
  · cases hphase.symm.trans hexited
  · rcases hunderway with ⟨hiterating, -⟩ | ⟨target, hreplaying, -⟩
    · cases hphase.symm.trans hiterating
    · cases hphase.symm.trans hreplaying
  · rcases hleft with hleft | hleft <;> cases hphase.symm.trans hleft

/-- Each loop around an address that commits its iterations has an entry that is underway, and it is
the topmost one of the loop. -/
def Program.Attended (p : Program) (a : Nat) (stack : List Entry) : Prop :=
  ∀ c l, p.Inside c l a → l.keepsFrames = false → l.singleByte = false →
    ∃ f below, stack.dropWhile (fun e => !e.isOfLoop c) = .loop f :: below ∧ f.Underway l

/-- The machine may go on at an address, with a log and on top of a stack. -/
structure Program.Resumes (p : Program) (a : Nat) (log : List Capture) (stack : List Entry) :
    Prop where
  starts : p.Starts a
  recorded : p.Recorded a log
  attended : p.Attended a stack

/-- What the entry of the loop `l` remembers, on top of a stack, is where the machine may go on. -/
structure LoopEntry.Regular (p : Program) (l : Loop) (below : List Entry) (f : LoopEntry) :
    Prop where
  resumes : p.Resumes f.ip f.startLog below
  log : p.Recorded (l.after f.ip) f.log
  /-- Before the first iteration nothing inside the loop has been closed. -/
  first : l.singleByte = true ∨ f.count = 0 → p.Recorded f.ip f.log
  phase : f.InPhase l

/-- What an entry remembers, on top of a stack, is where the machine may go on. -/
def Entry.Regular (p : Program) (below : List Entry) : Entry → Prop
  | alternative ip _ log => p.Resumes ip log below
  | capture _ _ => True
  | loop f => ∃ l size, p.fetch? f.ip = some (.loop l, size) ∧ f.Regular p l below

/-- The entries of a stack are regular, each on top of those below it. -/
def StackRegular (p : Program) : List Entry → Prop
  | [] => True
  | e :: below => e.Regular p below ∧ StackRegular p below

/-- What every configuration of an attempt keeps to, where the code of an expression is run. -/
def Config.Regular (p : Program) : Config → Prop
  | running ip _ log stack => p.Resumes ip log stack ∧ StackRegular p stack
  | failing stack => StackRegular p stack

/-- What comes of a step is regular. -/
def Next.Regular (p : Program) : Next → Prop
  | going c => c.Regular p
  | accepted _ _ stack => StackRegular p stack
  | exhausted | malformed => True

variable {p : Program} {a b c size : Nat} {l : Loop} {log log' : List Capture}
  {stack below : List Entry} {e : Entry} {f : LoopEntry}

theorem StackRegular.of_suffix {S : List Entry} (h : StackRegular p stack) (hS : S <:+ stack) :
    StackRegular p S := by
  induction stack with
  | nil =>
    rw [List.suffix_nil.1 hS]
    trivial
  | cons e rest ih =>
    rcases List.suffix_cons_iff.1 hS with rfl | hS
    · exact h
    · exact ih h.2 hS

/-! ### Where the machine may go on -/

namespace Program.Attended

/-- With an entry more that is of no loop around the address. -/
theorem push (h : p.Attended a stack) (he : ∀ c l, p.Inside c l a → e.isOfLoop c = false) :
    p.Attended a (e :: stack) := by
  intro c l hc hk hsingle
  rw [List.dropWhile_cons_of_pos (by rw [he c l hc]; rfl)]
  exact h c l hc hk hsingle

/-- Without such an entry. -/
theorem pop (h : p.Attended a (e :: stack)) (he : ∀ c l, p.Inside c l a → e.isOfLoop c = false) :
    p.Attended a stack := by
  intro c l hc hk hsingle
  have hfound := h c l hc hk hsingle
  rw [List.dropWhile_cons_of_pos (by rw [he c l hc]; rfl)] at hfound
  exact hfound

end Program.Attended

namespace Program.Resumes

/-- On top of an entry that is of no loop. -/
theorem push (h : p.Resumes a log stack) (he : ∀ c, e.isOfLoop c = false) :
    p.Resumes a log (e :: stack) :=
  { h with attended := h.attended.push fun c _ _ => he c }

theorem pop (h : p.Resumes a log (e :: stack)) (he : ∀ c, e.isOfLoop c = false) :
    p.Resumes a log stack :=
  { h with attended := h.attended.pop fun c _ _ => he c }

section

variable (hs : p.Structured)
include hs

/-- Where an instruction leads, unless that is into its own loop. -/
theorem leads (h : p.Resumes a log stack) (hflow : p.Flows a b) (hb : p.Starts b)
    (hnot : ∀ l, ¬p.Inside a l b) (hlog : p.Recorded b log') : p.Resumes b log' stack := by
  refine ⟨hb, hlog, ?_⟩
  intro c l hc hk hsingle
  obtain ⟨hle, hlt⟩ := hs.inside h.starts hflow hc
  rcases Nat.eq_or_lt_of_le hle with rfl | hca
  · exact absurd hc (hnot l)
  · exact h.attended c l ⟨hc.starts, hc.fetch, hca, hlt⟩ hk hsingle

/-- At the next instruction, or at the target of this one further on. -/
theorem forward {i : Instr} (h : p.Resumes a log stack) (hf : p.fetch? a = some (i, size))
    (hi : ∀ l, i ≠ .loop l) (hb : p.Starts b) (hto : b = a + size ∨ b ∈ i.targets a)
    (hab : a ≤ b) : p.Resumes b log stack := by
  refine h.leads hs ⟨i, size, hf, hto⟩ hb (fun l hl => ?_) (h.recorded.mono hab)
  obtain ⟨size', hf'⟩ := hl.fetch
  cases hf.symm.trans hf'
  exact hi l rfl

/-- Behind a loop. -/
theorem after (h : p.Resumes c log stack) (hp : p.Sound) (hf : p.fetch? c = some (.loop l, size))
    (hlog : p.Recorded (l.after c) log') : p.Resumes (l.after c) log' stack := by
  refine h.leads hs ⟨.loop l, size, hf, Or.inr List.mem_cons_self⟩ (hp.loop h.starts hf).2.1
    (fun l' hl => ?_) hlog
  obtain ⟨size', hf'⟩ := hl.fetch
  cases hf.symm.trans hf'
  exact Nat.lt_irrefl _ hl.lt_after

/-- Behind a loop, on top of an entry of it. -/
theorem after_push (h : p.Resumes c log stack) (hp : p.Sound)
    (hf : p.fetch? c = some (.loop l, size)) (hlog : p.Recorded (l.after c) log')
    (hip : f.ip = c) : p.Resumes (l.after c) log' (.loop f :: stack) := by
  have hafter := h.after hs hp hf hlog
  refine { hafter with attended := hafter.attended.push fun c' l' hc' => ?_ }
  -- No loop around the code that follows is the loop itself.
  refine decide_eq_false fun heq => ?_
  obtain rfl : c = c' := hip.symm.trans heq
  obtain ⟨size', hf'⟩ := hc'.fetch
  cases hf.symm.trans hf'
  exact Nat.lt_irrefl _ hc'.lt_after

/-- At the body of a loop, on top of an entry of it, which is underway if the loop commits its
iterations. -/
theorem body (h : p.Resumes c log stack) (hp : p.Sound) (hf : p.fetch? c = some (.loop l, size))
    (hlog : p.Recorded c log') (hip : f.ip = c)
    (hunderway : l.keepsFrames = false → f.Underway l) :
    p.Resumes (Loop.body c) log' (.loop f :: stack) := by
  refine ⟨(hp.loop h.starts hf).1, hlog.mono (Nat.le_add_right ..), ?_⟩
  intro c' l' hc' hk hsingle
  have hbody : Loop.body c = c + size := by rw [Program.size_of_loop hf, Loop.body]
  obtain ⟨hle, hlt⟩ := hs.inside h.starts ⟨.loop l, size, hf, Or.inl hbody⟩ hc'
  rcases Nat.eq_or_lt_of_le hle with rfl | hcc
  · obtain ⟨size', hf'⟩ := hc'.fetch
    cases hf.symm.trans hf'
    have hof : (Entry.loop f).isOfLoop c' = true := decide_eq_true hip
    refine ⟨f, stack, ?_, hunderway hk⟩
    rw [List.dropWhile_cons_of_neg (by rw [hof]; decide)]
  · have hof : (Entry.loop f).isOfLoop c' = false :=
      decide_eq_false fun heq => Nat.ne_of_lt hcc (heq.symm.trans hip)
    rw [List.dropWhile_cons_of_pos (by rw [hof]; rfl)]
    exact h.attended c' l' ⟨hc'.starts, hc'.fetch, hcc, hlt⟩ hk hsingle

end

end Program.Resumes

namespace LoopEntry.Regular

/-- The entry of a loop that is entered. -/
theorem entering (h : p.Resumes c log stack) {phase : LoopPhase} {pos count : Nat}
    (hphase : LoopEntry.InPhase l
      { ip := c, phase, pos, log, start := pos, startLog := log, count }) :
    LoopEntry.Regular p l stack
      { ip := c, phase, pos, log, start := pos, startLog := log, count } where
  resumes := h
  log := h.recorded.mono (Nat.le_of_lt (l.lt_after c))
  first := fun _ => h.recorded
  phase := hphase

/-- Where a loop may iterate once more, nothing inside it has been closed that may be closed but
once. -/
theorem recorded (h : f.Regular p l stack) (hf : p.fetch? f.ip = some (.loop l, size))
    (hmore : l.Allows (f.count + 1)) : p.Recorded f.ip f.log := by
  rcases Nat.eq_zero_or_pos f.count with hzero | hpos
  · exact h.first (Or.inr hzero)
  · exact h.log.back h.resumes.starts hf (hmore.one_lt_max (Nat.succ_lt_succ hpos)) (Nat.le_refl _)

end LoopEntry.Regular

/-! ### Steps -/

namespace Config

variable {input : Array UInt8} {ip pos : Nat}

section

variable (hp : p.Sound) (hs : p.Structured)
include hp hs

/-! #### Executing -/

section

variable (h : p.Resumes ip log stack) (hstack : StackRegular p stack)
include h hstack

theorem regular_closeCapture {index : UInt8} (hf : p.fetch? ip = some (.captureEnd index, size)) :
    (closeCapture index (ip + size) pos log stack).Regular p := by
  have hsize := Program.length_of_fetch? hf
  unfold closeCapture
  split
  · next start _ =>
    have hnext : p.Resumes (ip + size) (log ++ [⟨index, start, pos⟩]) stack := {
      h.forward hs hf nofun (hp.next h.starts hf nofun) (Or.inl rfl) (by omega) with
      recorded := h.recorded.close hs ⟨h.starts, size, hf⟩ (by omega) start pos }
    cases stack with
    | nil => exact ⟨hnext, hstack⟩
    | cons e rest =>
      rw [dropOpening]
      split
      · next hopens =>
        refine ⟨hnext.pop fun c => ?_, hstack.2⟩
        cases e with
        | capture => rfl
        | alternative | loop => cases hopens
      · exact ⟨hnext, hstack⟩
  · exact hstack

theorem regular_runByteLoop (hf : p.fetch? ip = some (.loop l, size)) (hk : l.keepsFrames = false)
    (hsingle : l.singleByte = true) (body : Instr) :
    (runByteLoop input ip pos log stack l body).Regular p := by
  have hafter := h.recorded.mono (Nat.le_of_lt (l.lt_after ip))
  unfold runByteLoop
  extract_lets rest limit count mayRetry
  split
  · exact hstack
  · split
    · exact ⟨h.after_push hs hp hf hafter rfl,
        ⟨l, size, hf, .entering h (.bytes hk hsingle rfl)⟩, hstack⟩
    · exact ⟨h.after hs hp hf hafter, hstack⟩

theorem regular_enterLoop (hf : p.fetch? ip = some (.loop l, size)) :
    (enterLoop p input ip pos log stack l).Regular p := by
  have hone := (hs.inOrder h.starts hf).allows_one
  have hafter := h.recorded.mono (Nat.le_of_lt (l.lt_after ip))
  unfold enterLoop
  extract_lets body after phase
  split
  · next hk =>
    have hphase : phase = .boundary ∨ phase = .counter := by
      simp only [phase]
      split
      · exact Or.inl rfl
      · exact Or.inr rfl
    refine ⟨?_, ⟨l, size, hf, .entering h (.kept hk hphase hone)⟩, hstack⟩
    split
    · exact h.body hs hp hf h.recorded rfl fun hk' => absurd hk (by simp [hk'])
    · exact h.after_push hs hp hf hafter rfl
  · next hk =>
    have hk := Bool.eq_false_iff.2 hk
    split
    · next hsingle =>
      have hsingle : l.singleByte = false := by simpa using hsingle
      split
      · exact ⟨h.after_push hs hp hf hafter rfl,
          ⟨l, size, hf, .entering h (.left hk hsingle (Or.inl rfl) (hone.mono (Nat.zero_le 1)))⟩,
          hstack⟩
      · exact ⟨h.body hs hp hf h.recorded rfl fun _ => Or.inl ⟨rfl, hone⟩,
          ⟨l, size, hf, .entering h (.underway hk hsingle (Or.inl ⟨rfl, hone⟩))⟩, hstack⟩
    · next hsingle =>
      split
      · exact regular_runByteLoop hp hs h hstack hf hk (by simpa using hsingle) _
      · trivial

end

/-! #### Ending an iteration -/

section

variable {offset : Int16} {n : Nat} (h : p.Resumes ip log stack)
  (hend : p.fetch? ip = some (.loopEnd offset, n)) (htarget : f.ip = offsetTarget ip offset)
  (hf : p.fetch? f.ip = some (.loop l, size)) (hstarts : p.Starts f.ip)
  (hafter : l.after f.ip = ip + n)
include h hend htarget hf hstarts hafter

omit hp in
/-- Back at a loop that may iterate more than once. -/
theorem resumes_back (hl : 1 < l.max) : p.Resumes f.ip log stack := by
  have hle : ip ≤ l.after f.ip := hafter ▸ Nat.le_add_right ip n
  refine h.leads hs ⟨_, n, hend, Or.inr (htarget ▸ List.mem_cons_self)⟩ hstarts (fun l' hl' => ?_)
    (h.recorded.back hstarts hf hl hle)
  obtain ⟨size', hf'⟩ := hl'.fetch
  cases hend.symm.trans hf'

theorem regular_keepIteration (hstack : StackRegular p stack) (hk : l.keepsFrames = true) :
    (keepIteration pos log stack l f).Regular p := by
  unfold keepIteration
  extract_lets count needed phase
  split
  · next hmore =>
    have hallows : l.Allows (count + 1) := Loop.allowsMore_iff.1 hmore
    have hloop := resumes_back hs h hend htarget hf hstarts hafter
      (hallows.one_lt_max (Nat.succ_lt_succ (Nat.succ_pos f.count)))
    have hphase : phase = .boundary ∨ phase = .counter := by
      simp only [phase]
      split
      · exact Or.inr rfl
      · exact Or.inl rfl
    refine ⟨?_, ⟨l, size, hf, .entering hloop (.kept hk hphase hallows)⟩, hstack⟩
    split
    · exact hloop.body hs hp hf hloop.recorded rfl fun hk' => absurd hk (by simp [hk'])
    · exact hloop.after_push hs hp hf
        (hloop.recorded.mono (Nat.le_of_lt (l.lt_after f.ip))) rfl
  · rw [hafter]
    exact ⟨h.forward hs hend nofun (hp.next h.starts hend nofun) (Or.inl rfl)
      (Nat.le_add_right ip n), hstack⟩

theorem regular_commitIteration (hentry : f.Regular p l below) (hbelow : StackRegular p below)
    (hk : l.keepsFrames = false) (hsingle : l.singleByte = false) (hunderway : f.Underway l) :
    (commitIteration input pos log below l f).Regular p := by
  have hcount : l.Allows (f.count + 1) := by
    rcases hunderway with ⟨-, hallows⟩ | ⟨target, -, hlt, hallows⟩
    · exact hallows
    · exact hallows.mono (by omega)
  have hrecorded : p.Recorded (l.after f.ip) log :=
    h.recorded.mono (hafter ▸ Nat.le_add_right ip n)
  unfold commitIteration
  extract_lets progressed count again phase
  -- The loop goes on only where its bound allows another iteration.
  have hagain (hagain : again = true) :
      l.Allows (count + 1) ∧ LoopEntry.Underway l { f with phase := f.phase, count, pos, log } := by
    rcases hunderway with ⟨hphase, -⟩ | ⟨target, hphase, -, hallows⟩
    · have hmore : l.Allows (count + 1) := by
        simp only [again, hphase, Bool.or_eq_true, decide_eq_true_eq, Bool.and_eq_true] at hagain
        rcases hagain with hlt | ⟨-, hmore⟩
        · exact (hs.inOrder hstarts hf).allows_min.mono hlt
        · exact Loop.allowsMore_iff.1 hmore
      exact ⟨hmore, Or.inl ⟨hphase, hmore⟩⟩
    · have hlt : count < target := by simpa only [again, hphase, decide_eq_true_eq] using hagain
      exact ⟨hallows.mono (by omega), Or.inr ⟨target, hphase, hlt, hallows⟩⟩
  have hentry' {phase : LoopPhase}
      (hphase : LoopEntry.InPhase l { f with phase, count, pos, log }) :
      LoopEntry.Regular p l below { f with phase, count, pos, log } := {
    resumes := hentry.resumes
    log := hrecorded
    first := fun hfirst => by simp [hsingle, count] at hfirst
    phase := hphase }
  by_cases hgo : again = true
  · obtain ⟨hmore, hunderway'⟩ := hagain hgo
    have hphase : phase = f.phase := if_pos hgo
    have hback := (resumes_back hs h hend htarget hf hstarts hafter
      (hmore.one_lt_max (Nat.succ_lt_succ (Nat.succ_pos f.count)))).recorded
    rw [if_pos hgo, hphase]
    exact ⟨hentry.resumes.body hs hp hf hback rfl fun _ => hunderway',
      ⟨l, size, hf, hentry' (.underway hk hsingle hunderway')⟩, hbelow⟩
  · have hphase : phase = .exited ∨ phase = .stalled := by
      simp only [phase, if_neg hgo]
      split
      · exact Or.inl rfl
      · exact Or.inr rfl
    rw [if_neg hgo]
    exact ⟨hentry.resumes.after_push hs hp hf hrecorded rfl,
      ⟨l, size, hf, hentry' (.left hk hsingle hphase hcount)⟩, hbelow⟩

end

theorem regular_endIteration (h : p.Resumes ip log stack) (hstack : StackRegular p stack)
    {offset : Int16} (hend : p.fetch? ip = some (.loopEnd offset, n)) :
    (endIteration p input pos log stack (offsetTarget ip offset)).Regular p := by
  obtain ⟨l, size, hstarts, hf, hsingle, hafter⟩ := hp.loopEnd h.starts hend
  rw [← Program.size_of_loopEnd hend] at hafter
  unfold endIteration
  split
  · next f below hdrop =>
    obtain ⟨hof, hsuffix⟩ := dropWhile_isOfLoop_eq hdrop
    have htarget : f.ip = offsetTarget ip offset := of_decide_eq_true hof
    obtain ⟨⟨l', size', hf', hentry⟩, hbelow⟩ := hstack.of_suffix hsuffix
    rw [hf]
    dsimp only
    rw [← htarget] at hf hstarts hafter
    cases hf.symm.trans hf'
    split
    · next hk => exact regular_keepIteration hp hs h hend htarget hf hstarts hafter hstack hk
    · next hk =>
      have hk := Bool.eq_false_iff.2 hk
      have hinside : p.Inside f.ip l ip := htarget ▸ hp.inside_loopEnd h.starts hend (htarget ▸ hf)
      obtain ⟨g, below', hdrop', hunderway⟩ := h.attended f.ip l hinside hk hsingle
      rw [htarget, hdrop] at hdrop'
      cases hdrop'
      exact regular_commitIteration hp hs h hend htarget hf hstarts hafter hentry hbelow hk hsingle
        hunderway
  · exact hstack

theorem regular_execute (h : p.Resumes ip log stack) (hstack : StackRegular p stack) :
    (execute p input ip pos log stack).Regular p := by
  unfold execute
  split
  · trivial
  · next i size hf =>
    have hnext (hi : ∀ l, i ≠ .loop l) (hi' : i ≠ .accept) : p.Resumes (ip + size) log stack :=
      h.forward hs hf hi (hp.next h.starts hf hi') (Or.inl rfl) (Nat.le_add_right ip size)
    cases i with
    | accept => exact hstack
    | inputStart | inputEnd =>
      dsimp only
      split
      · exact ⟨hnext (by simp) (by simp), hstack⟩
      · exact hstack
    | split offset =>
      obtain ⟨hlt, hstarts⟩ := hp.split h.starts hf
      have htarget : p.Resumes (offsetTarget ip offset) log stack :=
        h.forward hs hf (by simp) hstarts (Or.inr List.mem_cons_self) (Nat.le_of_lt hlt)
      exact ⟨(hnext (by simp) (by simp)).push fun _ => rfl, htarget, hstack⟩
    | jump offset =>
      obtain ⟨hlt, hstarts⟩ := hp.jump h.starts hf
      exact ⟨h.forward hs hf (by simp) hstarts (Or.inr List.mem_cons_self) (Nat.le_of_lt hlt),
        hstack⟩
    | captureStart index => exact ⟨(hnext (by simp) (by simp)).push fun _ => rfl, trivial, hstack⟩
    | captureEnd index => exact regular_closeCapture hp hs h hstack hf
    | loop l => exact regular_enterLoop hp hs h hstack hf
    | loopEnd offset => exact regular_endIteration hp hs h hstack hf
    | anyByte | byte | bitmap | ranges =>
      dsimp only
      split
      · split
        · exact ⟨hnext (by simp) (by simp), hstack⟩
        · exact hstack
      · exact hstack

/-! #### Going back -/

section

variable (hf : p.fetch? f.ip = some (.loop l, size)) (hentry : f.Regular p l below)
  (hbelow : StackRegular p below)
include hf hentry hbelow

theorem regular_retryByteLoop (hsingle : l.singleByte = true) (hk : l.keepsFrames = false)
    (hphase : f.phase = .exited) : (retryByteLoop p input below l f).Regular p := by
  have hput (k : Nat) : (Next.run (l.after f.ip) (f.start + k) f.log
      (.loop { f with count := k } :: below)).Regular p :=
    ⟨hentry.resumes.after_push hs hp hf hentry.log rfl,
      ⟨l, size, hf, {
        resumes := hentry.resumes
        log := hentry.log
        first := fun _ => hentry.first (Or.inl hsingle)
        phase := .bytes hk hsingle hphase }⟩, hbelow⟩
  unfold retryByteLoop
  split
  · dsimp only
    split
    · exact ⟨hentry.resumes.after hs hp hf hentry.log, hbelow⟩
    · exact hput _
  · split
    · trivial
    · split
      · split
        · exact hput _
        · exact hbelow
      · exact hbelow

theorem regular_retryLoop (hsingle : l.singleByte = false) (hk : l.keepsFrames = false) :
    (retryLoop input below l f).Regular p := by
  -- The loop is left, or iterates, as an entry says that takes the place of `f`.
  have hleave {g : LoopEntry} (hg : g.ip = f.ip) (hentry' : g.Regular p l below) :
      (Next.run (l.after f.ip) g.pos g.log (.loop g :: below)).Regular p :=
    ⟨hentry.resumes.after_push hs hp hf (hg ▸ hentry'.log) hg,
      ⟨l, size, hg ▸ hf, hentry'⟩, hbelow⟩
  have hiterate {g : LoopEntry} (hg : g.ip = f.ip) (hentry' : g.Regular p l below)
      (hlog : p.Recorded f.ip g.log) (hunderway : g.Underway l) :
      (Next.run (Loop.body f.ip) g.pos g.log (.loop g :: below)).Regular p :=
    ⟨hentry.resumes.body hs hp hf hlog hg fun _ => hunderway,
      ⟨l, size, hg ▸ hf, hentry'⟩, hbelow⟩
  unfold retryLoop
  extract_lets body after resume target fresh
  have hrestart := hentry.resumes.recorded
  have hfresh {phase : LoopPhase} (hphase : LoopEntry.InPhase l { fresh with phase }) :
      LoopEntry.Regular p l below { fresh with phase } := {
    resumes := hentry.resumes
    log := hrestart.mono (Nat.le_of_lt (l.lt_after f.ip))
    first := fun _ => hrestart
    phase := hphase }
  rcases hentry.phase with ⟨hk', -, -⟩ | ⟨-, hsingle', -⟩ | ⟨-, -, hunderway⟩ |
    ⟨-, -, hleft, hcount⟩
  · simp [hk] at hk'
  · simp [hsingle] at hsingle'
  · rcases hunderway with ⟨hphase, hmore⟩ | ⟨target, hphase, -⟩
    · rw [hphase]
      dsimp only
      split
      · exact hleave (g := { f with phase := .exited }) rfl
          { hentry with
            phase := .left hk hsingle (Or.inl rfl) (hmore.mono (Nat.le_succ f.count)) }
      · exact hbelow
    · rw [hphase]
      exact hbelow
  · rcases hleft with hphase | hphase
    · rw [hphase]
      dsimp only
      split
      · split
        · next hlt =>
          split
          · exact hleave (g := fresh) rfl
              (hfresh (.left hk hsingle (Or.inl hphase) (hcount.mono (Nat.zero_le _))))
          · next hne =>
            have hunderway : LoopEntry.Underway l { fresh with phase := .replaying target } :=
              Or.inr ⟨target, rfl, Nat.pos_of_ne_zero hne,
                hcount.mono (Nat.le_of_eq (Nat.sub_add_cancel (Nat.lt_of_le_of_lt
                  (Nat.zero_le _) hlt)))⟩
            exact hiterate (g := { fresh with phase := .replaying target }) rfl
              (hfresh (.underway hk hsingle hunderway)) hrestart hunderway
        · exact hbelow
      · split
        · next hmore =>
          have hallows := Loop.allowsMore_iff.1 hmore.1
          have hunderway : LoopEntry.Underway l { f with phase := .iterating } :=
            Or.inl ⟨rfl, hallows⟩
          exact hiterate (g := { f with phase := .iterating }) rfl
            { hentry with phase := .underway hk hsingle hunderway } (hentry.recorded hf hallows)
            hunderway
        · exact hbelow
    · rw [hphase]
      exact hbelow

theorem regular_retryBoundary (hk : l.keepsFrames = true) (hcount : l.Allows (f.count + 1)) :
    (retryBoundary below l f).Regular p := by
  unfold retryBoundary
  split
  · exact ⟨hentry.resumes.after hs hp hf hentry.log, hbelow⟩
  · exact ⟨hentry.resumes.body hs hp hf (hentry.recorded hf hcount) rfl fun hk' =>
      absurd hk (by simp [hk']),
      ⟨l, size, hf, { hentry with phase := .kept hk (Or.inr rfl) hcount }⟩, hbelow⟩

end

theorem regular_backtrack (hstack : StackRegular p stack) :
    (backtrack p input stack).Regular p := by
  match stack with
  | [] => trivial
  | .alternative ip pos log :: below => exact hstack
  | .capture _ _ :: below => exact hstack.2
  | .loop f :: below =>
    obtain ⟨⟨l, size, hf, hentry⟩, hbelow⟩ := hstack
    unfold backtrack
    dsimp only
    rw [hf]
    split
    · exact hbelow
    · next hcounter =>
      dsimp only
      split
      · next hphase =>
        obtain ⟨hk, hcount⟩ := hentry.phase.of_boundary hphase
        exact regular_retryBoundary hp hs hf hentry hbelow hk hcount
      · next hboundary =>
        rcases hentry.phase with ⟨-, hphase, -⟩ | ⟨hk, hsingle, hphase⟩ | ⟨hk, hsingle, -⟩ |
          ⟨hk, hsingle, -, -⟩
        · exact (hphase.elim hboundary hcounter).elim
        · rw [if_pos hsingle]
          exact regular_retryByteLoop hp hs hf hentry hbelow hsingle hk hphase
        · rw [hsingle, if_neg Bool.false_ne_true]
          exact regular_retryLoop hp hs hf hentry hbelow hsingle hk
        · rw [hsingle, if_neg Bool.false_ne_true]
          exact regular_retryLoop hp hs hf hentry hbelow hsingle hk

/-- **A step from a regular configuration leads to a regular one.** -/
theorem regular_step {c : Config} (hc : c.Regular p) : (c.step p input).Regular p := by
  cases c with
  | running ip pos log stack => exact regular_execute hp hs hc.1 hc.2
  | failing stack => exact regular_backtrack hp hs hc

end

end Config

end BoundedRegex
