import BoundedRegex.Proofs.Code.Validation
import BoundedRegex.Proofs.Match.ByteLoop

/-!
# Safe configurations

Sound code need not be what any pattern gives rise to: loops may overlap, and jumps may enter and
leave their bodies.  Still, every configuration of an attempt is safe (`Config.Safe`):

* an instruction starts at the address of the machine, at every address it may go back to, and at
  the address of the loop that a frame is of;
* offsets are within the input, and the spans of a log end where the log was taken, or before;
* an entry remembers no offset beyond the one to which the entry above it may go back
  (`Entry.floor`), so that offsets are ordered along the stack.

`Config.safe_step`: a step from a safe configuration leads to a safe one, and it always finds an
instruction that can be decoded.
-/

namespace BoundedRegex

/-- The spans of a log lie between two offsets. -/
def SpansWithin (start stop : Nat) (log : List Capture) : Prop :=
  ∀ c ∈ log, start ≤ c.start ∧ c.start ≤ c.stop ∧ c.stop ≤ stop

theorem SpansWithin.mono {start a b : Nat} {log : List Capture} (h : SpansWithin start a log)
    (hab : a ≤ b) : SpansWithin start b log := fun c hc =>
  have ⟨hstart, hle, hstop⟩ := h c hc
  ⟨hstart, hle, Nat.le_trans hstop hab⟩

theorem spansWithin_nil (start stop : Nat) : SpansWithin start stop [] := nofun

/-- What the entry of the loop `l` remembers is in order, in a configuration whose offset is
`bound`. -/
structure LoopEntry.Orderly (input : Array UInt8) (start bound : Nat) (l : Loop)
    (f : LoopEntry) : Prop where
  start_le : start ≤ f.start
  le_pos : f.start ≤ f.pos
  pos_le : f.pos ≤ bound
  log : SpansWithin start f.pos f.log
  startLog : SpansWithin start f.start f.startLog
  /-- Bytes that have been counted are bytes of the input, and there is one that a greedy loop may
  give back. -/
  bytes : l.singleByte = true → f.phase = .exited ∧ f.pos = f.start ∧
    f.start + f.count ≤ input.size ∧ (l.greedy = true → l.min.toNat < f.count)
  replaying {target : Nat} : f.phase = .replaying target → f.count < target

namespace Entry

/-- What an entry remembers is in order, and leads to starts of instructions. -/
def Safe (p : Program) (input : Array UInt8) (start bound : Nat) : Entry → Prop
  | alternative ip pos log =>
    p.Starts ip ∧ start ≤ pos ∧ pos ≤ bound ∧ SpansWithin start pos log
  | capture _ pos => start ≤ pos ∧ pos ≤ bound
  | loop f => ∃ l n, p.Starts f.ip ∧ p.fetch? f.ip = some (.loop l, n) ∧
      f.Orderly input start bound l

/-- The first offset to which an entry may go back. -/
def floor : Entry → Nat
  | alternative _ pos _ => pos
  | capture _ pos => pos
  | loop f => f.start

end Entry

variable {p : Program} {input : Array UInt8} {start a b : Nat} {stack : List Entry} {e : Entry}

theorem LoopEntry.Orderly.mono {l : Loop} {f : LoopEntry} (h : f.Orderly input start a l)
    (hab : a ≤ b) : f.Orderly input start b l :=
  { h with pos_le := Nat.le_trans h.pos_le hab }

theorem Entry.Safe.mono (h : e.Safe p input start a) (hab : a ≤ b) : e.Safe p input start b := by
  cases e with
  | alternative ip pos log => exact ⟨h.1, h.2.1, Nat.le_trans h.2.2.1 hab, h.2.2.2⟩
  | capture index pos => exact ⟨h.1, Nat.le_trans h.2 hab⟩
  | loop f =>
    obtain ⟨l, n, hstarts, hf, ho⟩ := h
    exact ⟨l, n, hstarts, hf, ho.mono hab⟩

theorem Entry.Safe.floor_le (h : e.Safe p input start b) : start ≤ e.floor ∧ e.floor ≤ b := by
  cases e with
  | alternative ip pos log => exact ⟨h.2.1, h.2.2.1⟩
  | capture index pos => exact h
  | loop f =>
    obtain ⟨l, n, -, -, ho⟩ := h
    exact ⟨ho.start_le, Nat.le_trans ho.le_pos ho.pos_le⟩

/-- The entries of a stack are safe, each within the offset to which the one above it may go
back. -/
def StackSafe (p : Program) (input : Array UInt8) (start : Nat) : Nat → List Entry → Prop
  | _, [] => True
  | bound, e :: rest => e.Safe p input start bound ∧ StackSafe p input start e.floor rest

namespace StackSafe

theorem mono (h : StackSafe p input start a stack) (hab : a ≤ b) :
    StackSafe p input start b stack := by
  cases stack with
  | nil => trivial
  | cons e rest => exact ⟨h.1.mono hab, h.2⟩

theorem tail (h : StackSafe p input start b (e :: stack)) : StackSafe p input start b stack :=
  h.2.mono h.1.floor_le.2

theorem of_suffix {S : List Entry} (h : StackSafe p input start b stack) (hS : S <:+ stack) :
    StackSafe p input start b S := by
  induction stack with
  | nil =>
    rw [List.suffix_nil.1 hS]
    trivial
  | cons e rest ih =>
    rcases List.suffix_cons_iff.1 hS with rfl | hS
    · exact h
    · exact ih h.tail hS

theorem of_mem (h : StackSafe p input start b stack) (he : e ∈ stack) :
    e.Safe p input start b := by
  induction stack with
  | nil => cases he
  | cons e' rest ih =>
    rcases List.mem_cons.1 he with rfl | he
    · exact h.1
    · exact ih h.tail he

end StackSafe

/-- What the machine has at an offset is in order. -/
structure Placed (p : Program) (input : Array UInt8) (start pos : Nat) (log : List Capture)
    (stack : List Entry) : Prop where
  start_le : start ≤ pos
  le_size : pos ≤ input.size
  log : SpansWithin start pos log
  stack : StackSafe p input start pos stack

/-- What every configuration of an attempt keeps to. -/
def Config.Safe (p : Program) (input : Array UInt8) (start : Nat) : Config → Prop
  | running ip pos log stack => p.Starts ip ∧ Placed p input start pos log stack
  | failing stack => StackSafe p input start input.size stack

/-- What comes of a step is safe. -/
def Next.Safe (p : Program) (input : Array UInt8) (start : Nat) : Next → Prop
  | going c => c.Safe p input start
  | accepted pos log stack => Placed p input start pos log stack
  | exhausted => True
  | malformed => False

/-! ### Steps -/

namespace Config

variable {ip pos : Nat} {log : List Capture} {l : Loop} {n : Nat} {f : LoopEntry}
  {below : List Entry}

theorem safe_fail (hstack : StackSafe p input start b stack) (hb : b ≤ input.size) :
    (Next.fail stack).Safe p input start :=
  hstack.mono hb

/-! #### Going on -/

section

variable (h : Placed p input start pos log stack)
include h

/-- The entry of a loop that is entered. -/
theorem safe_entering (hip : p.Starts ip) (hf : p.fetch? ip = some (.loop l, n)) {phase : LoopPhase}
    {count : Nat} (hbytes : l.singleByte = true → phase = .exited ∧ pos + count ≤ input.size ∧
      (l.greedy = true → l.min.toNat < count))
    (hphase : ∀ target, phase ≠ .replaying target) :
    StackSafe p input start pos (.entering ip pos log phase count :: stack) :=
  ⟨⟨l, n, hip, hf, {
    start_le := h.start_le
    le_pos := Nat.le_refl _
    pos_le := Nat.le_refl _
    log := h.log
    startLog := h.log
    bytes := fun hl => ⟨(hbytes hl).1, rfl, (hbytes hl).2⟩
    replaying := fun ht => absurd ht (hphase _) }⟩, h.stack⟩

/-- The same for a loop that is not single-byte. -/
theorem safe_entering_body (hip : p.Starts ip) (hf : p.fetch? ip = some (.loop l, n))
    (hsingle : l.singleByte = false) {phase : LoopPhase} {count : Nat}
    (hphase : ∀ target, phase ≠ .replaying target) :
    StackSafe p input start pos (.entering ip pos log phase count :: stack) :=
  safe_entering h hip hf (fun hl => absurd hl (by simp [hsingle])) hphase

/-- Further on in the input, with the same spans. -/
theorem Placed.advance (hle : pos ≤ b) (hb : b ≤ input.size) :
    Placed p input start b log stack :=
  ⟨Nat.le_trans h.start_le hle, hb, h.log.mono hle, h.stack.mono hle⟩

theorem safe_closeCapture {index : UInt8} {next : Nat} (hnext : p.Starts next) :
    (closeCapture index next pos log stack).Safe p input start := by
  unfold closeCapture
  split
  · next opening hfind =>
    obtain ⟨hle, hge⟩ := h.stack.of_mem (List.mem_of_find?_eq_some hfind)
    refine ⟨hnext, h.start_le, h.le_size, ?_, ?_⟩
    · intro c hc
      rcases List.mem_append.1 hc with hc | hc
      · exact h.log c hc
      · rw [List.mem_singleton.1 hc]
        exact ⟨hle, hge, Nat.le_refl _⟩
    · unfold dropOpening
      split
      · split
        · exact h.stack.tail
        · exact h.stack
      · trivial
  · exact safe_fail h.stack h.le_size

theorem safe_runByteLoop (hip : p.Starts ip) (hf : p.fetch? ip = some (.loop l, n))
    (hafter : p.Starts (l.after ip)) (body : Instr) :
    (runByteLoop input ip pos log stack l body).Safe p input start := by
  unfold runByteLoop
  extract_lets rest limit count mayRetry
  have hcount : pos + count ≤ input.size := by
    have := le_runEnd input body pos limit
    have := runEnd_le_size body h.le_size limit
    omega
  have hplaced := Placed.advance h (Nat.le_add_right pos count) hcount
  split
  · exact safe_fail h.stack h.le_size
  · split
    · next hretry =>
      have hentry : StackSafe p input start pos (.entering ip pos log .exited count :: stack) := by
        refine safe_entering h hip hf (fun _ => ⟨rfl, hcount, fun hgreedy => ?_⟩) nofun
        simpa [mayRetry, hgreedy] using hretry
      exact ⟨hafter, { hplaced with stack := hentry.mono (Nat.le_add_right ..) }⟩
    · exact ⟨hafter, hplaced⟩

theorem safe_enterLoop (hp : p.Sound) (hip : p.Starts ip) (hf : p.fetch? ip = some (.loop l, n)) :
    (enterLoop p input ip pos log stack l).Safe p input start := by
  obtain ⟨hbody, hafter, hkeeps⟩ := hp.loop hip hf
  unfold enterLoop
  extract_lets body after phase
  split
  · next hk =>
    have hphase (target : Nat) : phase ≠ .replaying target := by
      simp only [phase]
      split <;> exact nofun
    refine ⟨?_, { h with stack := safe_entering_body h hip hf (hkeeps hk) hphase }⟩
    split
    · exact hbody
    · exact hafter
  · split
    · next hsingle =>
      have hsingle : l.singleByte = false := by simpa using hsingle
      split
      · exact ⟨hafter, { h with stack := safe_entering_body h hip hf hsingle nofun }⟩
      · exact ⟨hbody, { h with stack := safe_entering_body h hip hf hsingle nofun }⟩
    · obtain ⟨i, size, hi⟩ := hp.fetch hbody
      rw [hi]
      exact safe_runByteLoop h hip hf hafter i

theorem safe_keepIteration (hp : p.Sound) (hip : p.Starts f.ip)
    (hf : p.fetch? f.ip = some (.loop l, n)) (hsingle : l.singleByte = false) :
    (keepIteration pos log stack l f).Safe p input start := by
  obtain ⟨hbody, hafter, -⟩ := hp.loop hip hf
  unfold keepIteration
  extract_lets count needed phase
  split
  · have hphase (target : Nat) : phase ≠ .replaying target := by
      simp only [phase]
      split <;> exact nofun
    refine ⟨?_, { h with stack := safe_entering_body h hip hf hsingle hphase }⟩
    split
    · exact hbody
    · exact hafter
  · exact ⟨hafter, h⟩

omit h in
theorem safe_commitIteration (h : Placed p input start pos log (.loop f :: below)) (hp : p.Sound)
    (hip : p.Starts f.ip) (hf : p.fetch? f.ip = some (.loop l, n)) (hsingle : l.singleByte = false)
    (ho : f.Orderly input start pos l) :
    (commitIteration input pos log below l f).Safe p input start := by
  obtain ⟨hbody, hafter, -⟩ := hp.loop hip hf
  unfold commitIteration
  extract_lets progressed count again phase
  -- The loop goes on replaying only if the iterations do not suffice.
  have hphase {target : Nat} (ht : phase = .replaying target) : count < target := by
    by_cases hagain : again = true
    · have hf' : f.phase = .replaying target := by simpa [phase, hagain] using ht
      simpa [again, hf'] using hagain
    · simp only [phase, hagain] at ht
      revert ht
      split
      · next hcontra => cases hcontra
      · split <;> exact nofun
  refine ⟨?_, { h with stack := ⟨⟨l, n, hip, hf, {
    ho with
    le_pos := Nat.le_trans ho.le_pos ho.pos_le
    pos_le := Nat.le_refl _
    log := h.log
    bytes := fun hl => absurd hl (by simp [hsingle])
    replaying := hphase }⟩, h.stack.2⟩ }⟩
  split
  · exact hbody
  · exact hafter

omit h in
theorem dropWhile_isOfLoop_eq {a : Nat}
    (hdrop : stack.dropWhile (fun e => !e.isOfLoop a) = e :: below) :
    e.isOfLoop a = true ∧ e :: below <:+ stack := by
  have hne : stack.dropWhile (fun e => !e.isOfLoop a) ≠ [] := by simp [hdrop]
  have hhead := List.head_dropWhile_not (fun e => !Entry.isOfLoop a e) hne
  simp only [hdrop, List.head_cons, Bool.not_eq_false'] at hhead
  exact ⟨hhead, hdrop ▸ List.dropWhile_suffix _⟩

theorem safe_endIteration (hp : p.Sound) {offset : Int16} (hip : p.Starts ip)
    (hf : p.fetch? ip = some (.loopEnd offset, n)) :
    (endIteration p input pos log stack (offsetTarget ip offset)).Safe p input start := by
  obtain ⟨l, m, htarget, hl, hsingle, -⟩ := hp.loopEnd hip hf
  unfold endIteration
  split
  · next f below hdrop =>
    obtain ⟨hof, hsuffix⟩ := dropWhile_isOfLoop_eq hdrop
    have hip' : f.ip = offsetTarget ip offset := of_decide_eq_true hof
    have hstack := h.stack.of_suffix hsuffix
    obtain ⟨l', m', -, hl', ho⟩ := hstack.1
    rw [← hip'] at hl htarget
    cases hl.symm.trans hl'
    rw [← hip', hl]
    dsimp only
    split
    · exact safe_keepIteration h hp htarget hl hsingle
    · exact safe_commitIteration { h with stack := hstack } hp htarget hl hsingle ho
  · exact safe_fail h.stack h.le_size

theorem safe_execute (hp : p.Sound) (hip : p.Starts ip) :
    (execute p input ip pos log stack).Safe p input start := by
  obtain ⟨i, size, hf⟩ := hp.fetch hip
  have hfail : (Next.fail stack).Safe p input start := safe_fail h.stack h.le_size
  unfold execute
  rw [hf]
  cases i with
  | accept => exact h
  | inputStart =>
    dsimp only
    split
    · exact ⟨hp.next hip hf nofun, h⟩
    · exact hfail
  | inputEnd =>
    dsimp only
    split
    · exact ⟨hp.next hip hf nofun, h⟩
    · exact hfail
  | split offset =>
    exact ⟨hp.next hip hf nofun, { h with
      stack := ⟨⟨(hp.split hip hf).2, h.start_le, Nat.le_refl _, h.log⟩, h.stack⟩ }⟩
  | jump offset => exact ⟨(hp.jump hip hf).2, h⟩
  | captureStart index =>
    exact ⟨hp.next hip hf nofun, { h with stack := ⟨⟨h.start_le, Nat.le_refl _⟩, h.stack⟩ }⟩
  | captureEnd index => exact safe_closeCapture h (hp.next hip hf nofun)
  | loop l => exact safe_enterLoop h hp hip hf
  | loopEnd offset => exact safe_endIteration h hp hip hf
  | anyByte | byte | bitmap | ranges =>
    dsimp only
    cases hb : input[pos]? with
    | none => exact hfail
    | some b =>
      have hlt : pos < input.size := (Array.getElem?_eq_some_iff.1 hb).1
      dsimp only
      split
      · exact ⟨hp.next hip hf nofun, Placed.advance h (Nat.le_succ pos) hlt⟩
      · exact hfail

end

/-! #### Going back -/

section

variable (hp : p.Sound) (hip : p.Starts f.ip) (hf : p.fetch? f.ip = some (.loop l, n))
  (ho : f.Orderly input start input.size l) (hbelow : StackSafe p input start f.start below)
include hp hip hf ho hbelow

omit hp hip hf in
/-- Without the entry of a loop. -/
theorem safe_drop : (Next.fail below).Safe p input start :=
  safe_fail hbelow (Nat.le_trans ho.le_pos ho.pos_le)

theorem safe_retryByteLoop (hsingle : l.singleByte = true) :
    (retryByteLoop p input below l f).Safe p input start := by
  obtain ⟨hbody, hafter, -⟩ := hp.loop hip hf
  obtain ⟨hphase, hpos, hcount, hgreedy⟩ := ho.bytes hsingle
  -- Another number of bytes is taken, with or without the entry.
  have hput {k : Nat} (hk : f.start + k ≤ input.size) (hmin : l.greedy = true → l.min.toNat < k) :
      StackSafe p input start (f.start + k) (.loop { f with count := k } :: below) :=
    ⟨⟨l, n, hip, hf, {
      ho with
      pos_le := by simp only [hpos]; omega
      bytes := fun _ => ⟨hphase, hpos, hk, hmin⟩
      replaying := fun {target} ht => absurd (hphase.symm.trans ht) nofun }⟩, hbelow⟩
  have hplaced {k : Nat} (hk : f.start + k ≤ input.size) {S : List Entry}
      (hS : StackSafe p input start (f.start + k) S) :
      (Next.run (l.after f.ip) (f.start + k) f.log S).Safe p input start :=
    ⟨hafter, Nat.le_trans ho.start_le (Nat.le_add_right ..), hk,
      ho.log.mono (by omega), hS⟩
  unfold retryByteLoop
  split
  · next hg =>
    have hlt := hgreedy hg
    refine hplaced (by omega) ?_
    split
    · exact hbelow.mono (Nat.le_add_right ..)
    · exact hput (by omega) (fun _ => by omega)
  · next hg =>
    obtain ⟨i, size, hi⟩ := hp.fetch hbody
    rw [hi]
    dsimp only
    cases hb : input[f.start + f.count]? with
    | none => exact safe_drop ho hbelow
    | some b =>
      have hlt : f.start + f.count < input.size := (Array.getElem?_eq_some_iff.1 hb).1
      dsimp only
      split
      · exact hplaced (by omega) (hput (by omega) (fun h => absurd h hg))
      · exact safe_drop ho hbelow

theorem safe_retryLoop (hsingle : l.singleByte = false) :
    (retryLoop input below l f).Safe p input start := by
  obtain ⟨hbody, hafter, -⟩ := hp.loop hip hf
  -- The machine goes on from where an entry says.
  have hresume {g : LoopEntry} {a : Nat} (ha : p.Starts a) (hg : g.ip = f.ip)
      (hs : g.start = f.start) (ho : g.Orderly input start g.pos l) (hle : g.pos ≤ input.size) :
      (Next.run a g.pos g.log (.loop g :: below)).Safe p input start :=
    ⟨ha, Nat.le_trans ho.start_le ho.le_pos, hle, ho.log,
      ⟨l, n, by rw [hg]; exact hip, by rw [hg]; exact hf, ho⟩, hbelow.mono (Nat.le_of_eq hs.symm)⟩
  have hbytes {q : Prop} (hl : l.singleByte = true) : q := by simp [hsingle] at hl
  unfold retryLoop
  extract_lets body after resume target fresh
  have hfresh : fresh.Orderly input start f.start l := {
    start_le := ho.start_le
    le_pos := Nat.le_refl _
    pos_le := Nat.le_refl _
    log := ho.startLog
    startLog := ho.startLog
    bytes := fun hl => hbytes hl
    replaying := fun ht => Nat.lt_of_le_of_lt (Nat.zero_le _) (ho.replaying ht) }
  have hle : f.start ≤ input.size := Nat.le_trans ho.le_pos ho.pos_le
  split
  · split
    · exact hresume (g := { f with phase := .exited }) hafter rfl rfl
        { ho with pos_le := Nat.le_refl _, bytes := fun hl => hbytes hl, replaying := nofun }
        ho.pos_le
    · exact safe_drop ho hbelow
  · split
    · split
      · split
        · exact hresume (g := fresh) hafter rfl rfl hfresh hle
        · next hne =>
          exact hresume (g := { fresh with phase := .replaying target }) hbody rfl rfl
            { hfresh with
              bytes := fun hl => hbytes hl
              replaying := fun ht => by cases ht; exact Nat.pos_of_ne_zero hne } hle
      · exact safe_drop ho hbelow
    · split
      · exact hresume (g := { f with phase := .iterating }) hbody rfl rfl
          { ho with pos_le := Nat.le_refl _, bytes := fun hl => hbytes hl, replaying := nofun }
          ho.pos_le
      · exact safe_drop ho hbelow
  · exact safe_drop ho hbelow

theorem safe_retryBoundary (hphase : f.phase = .boundary) :
    (retryBoundary below l f).Safe p input start := by
  obtain ⟨hbody, hafter, -⟩ := hp.loop hip hf
  have hplaced {S : List Entry} (hS : StackSafe p input start f.pos S) :
      Placed p input start f.pos f.log S :=
    ⟨Nat.le_trans ho.start_le ho.le_pos, ho.pos_le, ho.log, hS⟩
  unfold retryBoundary
  split
  · exact ⟨hafter, hplaced (hbelow.mono ho.le_pos)⟩
  · refine ⟨hbody, hplaced ⟨⟨l, n, hip, hf, {
      ho with
      pos_le := Nat.le_refl _
      bytes := fun hl => ?_
      replaying := nofun }⟩, hbelow⟩⟩
    exact absurd (hphase.symm.trans (ho.bytes hl).1) nofun

end

theorem safe_backtrack (hp : p.Sound) (hstack : StackSafe p input start input.size stack) :
    (backtrack p input stack).Safe p input start := by
  match stack with
  | [] => trivial
  | .alternative ip pos log :: below =>
    obtain ⟨⟨hip, hstart, hpos, hlog⟩, hbelow⟩ := hstack
    exact ⟨hip, hstart, hpos, hlog, hbelow⟩
  | .capture _ _ :: below => exact hstack.tail
  | .loop f :: below =>
    obtain ⟨⟨l, n, hip, hf, ho⟩, hbelow⟩ := hstack
    unfold backtrack
    dsimp only
    rw [hf]
    split
    · exact safe_drop ho hbelow
    · dsimp only
      split
      · next hphase => exact safe_retryBoundary hp hip hf ho hbelow hphase
      · split
        · next hsingle => exact safe_retryByteLoop hp hip hf ho hbelow hsingle
        · next hsingle =>
          exact safe_retryLoop hp hip hf ho hbelow (Bool.eq_false_iff.2 hsingle)

/-- **A step of a safe configuration is safe.** -/
theorem safe_step (hp : p.Sound) {c : Config} (hc : c.Safe p input start) :
    (c.step p input).Safe p input start := by
  cases c with
  | running ip pos log stack => exact safe_execute hc.2 hp hc.1
  | failing stack => exact safe_backtrack hp hc

end Config

end BoundedRegex
