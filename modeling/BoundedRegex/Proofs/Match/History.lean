import BoundedRegex.Proofs.Match.Runs

/-!
# The history of a run

A state of the machine does not tell how the machine has come there.  `History` does: it has the
*path*, which is the instructions that have led to where the machine is, without those that have
been given up; and for each frame that is alive when it was pushed and to which path it goes back.

`History.next` is the history after a step, made from the configurations before and behind it, and
`Machine.Follows` says that a state has a history in a run.  Nothing in a run depends on it, and
whatever is reached has one (`Machine.Reaches.follows`).
-/

namespace BoundedRegex

/-- An instruction that has been executed: when, at which address and at which offset. -/
structure Visit where
  time : Nat
  ip : Nat
  pos : Nat
deriving DecidableEq

/-- Where a frame comes from. -/
structure Origin where
  /-- When it was pushed. -/
  time : Nat
  /-- The path up to then, with the instruction that pushed it in front. -/
  entry : List Visit
  /-- The path to which it goes back. -/
  path : List Visit
deriving DecidableEq

/-- What has happened in a run. -/
structure History where
  /-- The steps so far. -/
  time : Nat
  /-- The instructions that have led to where the machine is, the latest in front. -/
  path : List Visit
  /-- Where the frames that are alive come from, the topmost in front. -/
  origins : List Origin
deriving DecidableEq

namespace Program

/-- The loop at an address, if there is one. -/
def loopAt? (p : Program) (a : Nat) : Option Loop :=
  match p.fetch? a with
  | some (.loop l, _) => some l
  | _ => none

/-- Whether the instruction at an address ends an iteration of a loop that commits it. -/
def commitsAt (p : Program) (a : Nat) : Bool :=
  match p.fetch? a with
  | some (.loopEnd offset, _) => (p.loopAt? (offsetTarget a offset)).any (!·.keepsFrames)
  | _ => false

/-- Whether a frame is taken back by starting its loop all over again: a greedy loop has no other
way to iterate once less. -/
def restarts (p : Program) : Entry → Bool
  | .loop f => f.phase = .exited && (p.loopAt? f.ip).any (·.greedy)
  | _ => false

section

variable {p : Program} {ip size : Nat} {l : Loop}

theorem commitsAt_of_fetch {i : Instr} (hf : p.fetch? ip = some (i, size))
    (hi : ∀ offset, i ≠ .loopEnd offset) : p.commitsAt ip = false := by
  rw [commitsAt, hf]
  cases i with
  | loopEnd offset => exact absurd rfl (hi offset)
  | _ => rfl

theorem commitsAt_of_loopEnd {offset : Int16} {n : Nat}
    (hend : p.fetch? ip = some (.loopEnd offset, n))
    (hf : p.fetch? (offsetTarget ip offset) = some (.loop l, size)) :
    p.commitsAt ip = !l.keepsFrames := by
  simp [commitsAt, loopAt?, hend, hf]

theorem restarts_loop {f : LoopEntry} (hf : p.fetch? f.ip = some (.loop l, size)) :
    p.restarts (.loop f) = (f.phase = .exited && l.greedy : Bool) := by
  simp [restarts, loopAt?, hf]

end

end Program

/-- The topmost frame goes back to another path now. -/
def Origin.rebase (path : List Visit) : List Origin → List Origin
  | o :: rest => { o with path } :: rest
  | [] => []

namespace History

/-- Nothing has happened. -/
def start : History :=
  { time := 0, path := [], origins := [] }

/-- The path with the instruction that is about to be executed. -/
def visit (h : History) (ip pos : Nat) : List Visit :=
  ⟨h.time, ip, pos⟩ :: h.path

/-- Where a frame comes from that the instruction pushes that is about to be executed. -/
def origin (h : History) (ip pos : Nat) : Origin :=
  { time := h.time, entry := h.visit ip pos, path := h.visit ip pos }

/-- The path to which a frame goes back that is taken back now, when it is the topmost one. -/
def resumed (p : Program) (h : History) (e : Entry) : List Visit :=
  match h.origins with
  | o :: _ => if p.restarts e then o.entry else o.path
  | [] => []

/-- When the frame at an index was pushed, counted from the bottom. -/
def pushedAt (h : History) (top : Nat) : Option Nat :=
  h.origins.reverse[top]?.map Origin.time

/-- The history after a step from one configuration to another.  An instruction that is executed
goes to the path; a frame that it pushes goes back to there, and so does that of a loop with an
iteration committed.  A frame that is taken back brings its own path. -/
def next (p : Program) (h : History) : Config → Config → History
  | .running ip pos _ stack, .running _ _ _ stack' =>
    let path := h.visit ip pos
    { time := h.time + 1
      path
      origins :=
        if stack.length < stack'.length then h.origin ip pos :: h.origins
        else
          let kept := h.origins.drop (stack.length - stack'.length)
          if p.commitsAt ip then Origin.rebase path kept else kept }
  | .failing (e :: below), .running _ _ _ stack' =>
    let path := h.resumed p e
    { time := h.time + 1
      path
      origins :=
        if below.length < stack'.length then Origin.rebase path h.origins else h.origins.tail }
  | c, c' =>
    { h with
      time := h.time + 1
      origins := h.origins.drop (c.stack.length - c'.stack.length) }

end History

/-- A state that a run from `s` passes through, with what has happened on the way, if the run goes
on after each match. -/
inductive Machine.Follows (p : Program) (input : Array UInt8) (s : MachineState) :
    MachineState → History → Prop where
  | start : Follows p input s s .start
  | step {t u : MachineState} {h : History} (hf : Follows p input s t h)
      (hs : Machine.step p input t = .running u) :
      Follows p input s u (h.next p t.config u.config)
  | resume {t u : MachineState} {h : History} (hf : Follows p input s t h)
      (hs : Machine.step p input t = .accepted u) :
      Follows p input s { u with mode := .backtracking }
        (h.next p t.config (.failing u.stack))

namespace Machine

variable {p : Program} {input : Array UInt8} {s t : MachineState} {h : History}

theorem Follows.reaches (hf : Follows p input s t h) : Reaches p input s t := by
  induction hf with
  | start => exact .refl
  | step _ hs ih => exact ih.step hs
  | resume _ hs ih => exact ih.resume hs

/-- Whatever a run reaches has a history. -/
theorem Reaches.follows (ht : Reaches p input s t) : ∃ h, Follows p input s t h := by
  induction ht with
  | refl => exact ⟨_, .start⟩
  | step _ hs ih =>
    obtain ⟨h, hf⟩ := ih
    exact ⟨_, hf.step hs⟩
  | resume _ hs ih =>
    obtain ⟨h, hf⟩ := ih
    exact ⟨_, hf.resume hs⟩

end Machine

/-! ### Frames with their origins -/

/-- A frame, with where it comes from. -/
abbrev Traced := Entry × Origin

namespace History

variable {p : Program} {h : History} {frames below : List Traced} {t : Traced} {e : Entry}
  {ip pos ip' pos' : Nat} {log log' : List Capture}

/-- A frame on top of so many others is at that index. -/
theorem pushedAt_of_origins {above : List Traced} {o : Origin}
    (horigins : h.origins = (above ++ (e, o) :: below).map Prod.snd) :
    h.pushedAt below.length = some o.time := by
  simp [pushedAt, horigins]

/-- An instruction pushes a frame. -/
theorem next_push (horigins : h.origins = frames.map Prod.snd) :
    h.next p (.running ip pos log (frames.map Prod.fst))
        (.running ip' pos' log' (e :: frames.map Prod.fst)) =
      { time := h.time + 1
        path := h.visit ip pos
        origins := (((e, h.origin ip pos) :: frames : List Traced)).map Prod.snd } := by
  simp [next, horigins]

/-- An instruction leaves the frames as they are. -/
theorem next_keep (horigins : h.origins = frames.map Prod.snd) (hip : p.commitsAt ip = false) :
    h.next p (.running ip pos log (frames.map Prod.fst))
        (.running ip' pos' log' (frames.map Prod.fst)) =
      { time := h.time + 1, path := h.visit ip pos, origins := frames.map Prod.snd } := by
  simp [next, horigins, hip]

/-- An instruction drops the topmost frame. -/
theorem next_pop (horigins : h.origins = (t :: frames).map Prod.snd)
    (hip : p.commitsAt ip = false) :
    h.next p (.running ip pos log ((t :: frames).map Prod.fst))
        (.running ip' pos' log' (frames.map Prod.fst)) =
      { time := h.time + 1, path := h.visit ip pos, origins := frames.map Prod.snd } := by
  have hnot : ¬frames.length + 1 < frames.length := Nat.not_lt.2 (Nat.le_succ _)
  simp [next, horigins, hip, hnot]

/-- An instruction drops the frames above one that it changes. -/
theorem next_commit {above : List Traced} {o : Origin}
    (horigins : h.origins = (above ++ (e, o) :: below).map Prod.snd)
    (hip : p.commitsAt ip = true) {e' : Entry} :
    h.next p (.running ip pos log ((above ++ (e, o) :: below).map Prod.fst))
        (.running ip' pos' log' (e' :: below.map Prod.fst)) =
      { time := h.time + 1
        path := h.visit ip pos
        origins := (((e', { o with path := h.visit ip pos }) :: below : List Traced)).map
          Prod.snd } := by
  have hdrop : (h.origins.drop above.length) = o :: below.map Prod.snd := by
    rw [horigins, List.map_append, List.drop_left' (List.length_map _)]
    rfl
  have hlength : (above ++ (e, o) :: below).length = above.length + (below.length + 1) :=
    List.length_append
  have hcount : (above ++ (e, o) :: below).length - (below.length + 1) = above.length := by
    rw [hlength, Nat.add_sub_cancel]
  have hnot : ¬(above ++ (e, o) :: below).length < below.length + 1 := by
    rw [hlength]
    exact Nat.not_lt.2 (Nat.le_add_left ..)
  simp only [next, List.length_map, List.length_cons, hnot, if_false, hcount, hip, if_true, hdrop]
  rfl

/-- A path is given up. -/
theorem next_fail (horigins : h.origins = frames.map Prod.snd) :
    h.next p (.running ip pos log (frames.map Prod.fst)) (.failing (frames.map Prod.fst)) =
      { h with time := h.time + 1, origins := frames.map Prod.snd } := by
  simp [next, horigins, Config.stack]

/-- A frame is taken back that offers nothing. -/
theorem next_drop (horigins : h.origins = (t :: below).map Prod.snd) :
    h.next p (.failing ((t :: below).map Prod.fst)) (.failing (below.map Prod.fst)) =
      { h with time := h.time + 1, origins := below.map Prod.snd } := by
  simp [next, horigins, Config.stack]

/-- A frame is taken back for the last time. -/
theorem next_last {o : Origin} (horigins : h.origins = ((e, o) :: below).map Prod.snd) :
    h.next p (.failing (((e, o) :: below : List Traced).map Prod.fst))
        (.running ip' pos' log' (below.map Prod.fst)) =
      { time := h.time + 1
        path := if p.restarts e then o.entry else o.path
        origins := below.map Prod.snd } := by
  simp [next, resumed, horigins]

/-- A frame is taken back, and another one put in its place. -/
theorem next_replace {o : Origin} (horigins : h.origins = ((e, o) :: below).map Prod.snd)
    {e' : Entry} {path : List Visit} (hpath : path = if p.restarts e then o.entry else o.path) :
    h.next p (.failing (((e, o) :: below : List Traced).map Prod.fst))
        (.running ip' pos' log' (e' :: below.map Prod.fst)) =
      { time := h.time + 1
        path
        origins := (((e', { o with path }) :: below : List Traced)).map Prod.snd } := by
  simp [next, resumed, horigins, hpath, Origin.rebase]

end History

end BoundedRegex
