import BoundedRegex.Match.Machine

/-!
# Configurations

The machine keeps its frames in an array of which the first `sp` are alive, and the spans in an
array of which the first `log` count; a frame remembers a log by its length.  A *configuration* is
what is alive in such a state and no more: the frames are a list with the topmost in front, and
both the machine and its frames hold the logs themselves.  Going back to a frame is then a function
of the frame alone.

`Config.step` makes the machine's step on configurations, without bounds on the frames and the
spans.  `Proofs/Match/Refinement` shows that the machine makes just these steps.
-/

namespace BoundedRegex

/-- The frame of a loop, with logs in place of their lengths. -/
structure LoopEntry where
  ip : Nat
  phase : LoopPhase
  pos : Nat
  log : List Capture
  start : Nat
  startLog : List Capture
  count : Nat

/-- A frame, with logs in place of their lengths. -/
inductive Entry where
  | alternative (ip pos : Nat) (log : List Capture)
  | capture (index : UInt8) (pos : Nat)
  | loop (l : LoopEntry)

namespace Entry

/-- Whether an entry holds the start of a capture. -/
def opens (index : UInt8) : Entry → Bool
  | .capture i _ => i = index
  | _ => false

/-- Whether an entry is of the loop at an address. -/
def isOfLoop (ip : Nat) : Entry → Bool
  | .loop f => f.ip = ip
  | _ => false

/-- The entry of a loop that is entered. -/
def entering (ip pos : Nat) (log : List Capture) (phase : LoopPhase) (count : Nat) : Entry :=
  .loop { ip, phase, pos, log, start := pos, startLog := log, count }

end Entry

/-- What is alive in a state of the machine. -/
inductive Config where
  /-- About to execute the instruction at `ip`. -/
  | running (ip pos : Nat) (log : List Capture) (stack : List Entry)
  /-- Giving up the current path. -/
  | failing (stack : List Entry)

/-- What comes of a step. -/
inductive Next where
  | going (c : Config)
  | accepted (pos : Nat) (log : List Capture) (stack : List Entry)
  | exhausted
  | malformed

/-- Goes on with the step. -/
abbrev Next.run (ip pos : Nat) (log : List Capture) (stack : List Entry) : Next :=
  .going (.running ip pos log stack)

/-- Gives up the current path. -/
abbrev Next.fail (stack : List Entry) : Next :=
  .going (.failing stack)

namespace Config

/-- The frames that are alive. -/
def stack : Config → List Entry
  | running _ _ _ stack => stack
  | failing stack => stack

/-- The spans in the log; a path that is given up has none. -/
def log : Config → List Capture
  | running _ _ log _ => log
  | failing _ => []

/-! ### Captures -/

/-- The stack without its topmost entry, if that holds the start of a capture. -/
def dropOpening (index : UInt8) : List Entry → List Entry
  | e :: rest => if e.opens index then rest else e :: rest
  | [] => []

/-- Closes a capture. -/
def closeCapture (index : UInt8) (next pos : Nat) (log : List Capture) (stack : List Entry) :
    Next :=
  match stack.find? (Entry.opens index) with
  | some (.capture _ start) =>
    .run next pos (log ++ [⟨index, start, pos⟩]) (dropOpening index stack)
  | _ => .fail stack

/-! ### Loops -/

/-- Runs a whole single-byte loop. -/
def runByteLoop (input : Array UInt8) (ip pos : Nat) (log : List Capture) (stack : List Entry)
    (l : Loop) (body : Instr) : Next :=
  let rest := input.size - pos
  let limit :=
    if !l.greedy then l.min.toNat
    else if l.max = unboundedCount then rest
    else l.max.toNat
  let count := runEnd body input pos limit - pos
  let mayRetry : Bool :=
    if l.greedy then l.min.toNat < count else l.allowsMore count && count < rest
  if count < l.min.toNat then .fail stack
  else if mayRetry then
    .run (l.after ip) (pos + count) log (.entering ip pos log .exited count :: stack)
  else .run (l.after ip) (pos + count) log stack

/-- Enters the loop at an address. -/
def enterLoop (p : Program) (input : Array UInt8) (ip pos : Nat) (log : List Capture)
    (stack : List Entry) (l : Loop) : Next :=
  let body := Loop.body ip
  let after := l.after ip
  if l.keepsFrames then
    let phase := if l.min = 0 then LoopPhase.boundary else .counter
    .run (if l.greedy ∨ 0 < l.min then body else after) pos log
      (.entering ip pos log phase 0 :: stack)
  else if !l.singleByte then
    if !l.greedy ∧ l.min = 0 then .run after pos log (.entering ip pos log .exited 0 :: stack)
    else .run body pos log (.entering ip pos log .iterating 0 :: stack)
  else
    match p.fetch? body with
    | some (i, _) => runByteLoop input ip pos log stack l i
    | none => .malformed

/-- Ends an iteration of a loop that keeps frames; `f` is the entry pushed before it. -/
def keepIteration (pos : Nat) (log : List Capture) (stack : List Entry) (l : Loop)
    (f : LoopEntry) : Next :=
  let count := f.count + 1
  if l.allowsMore count then
    let needed : Bool := count < l.min.toNat
    let phase := if needed then LoopPhase.counter else .boundary
    .run (if l.greedy || needed then Loop.body f.ip else l.after f.ip) pos log
      (.entering f.ip pos log phase count :: stack)
  else .run (l.after f.ip) pos log stack

/-- Ends an iteration of any other loop, whose entry `f` lies on top of `below`. -/
def commitIteration (input : Array UInt8) (pos : Nat) (log : List Capture) (below : List Entry)
    (l : Loop) (f : LoopEntry) : Next :=
  let progressed : Bool := pos ≠ f.pos
  let count := f.count + 1
  let again : Bool :=
    match f.phase with
    | .replaying target => count < target
    | .iterating =>
      count < l.min.toNat ||
        (l.greedy && progressed && pos < input.size && l.allowsMore count)
    | _ => false
  let phase :=
    if again then f.phase else if progressed || l.greedy then .exited else .stalled
  .run (if again then Loop.body f.ip else l.after f.ip) pos log
    (.loop { f with phase, count, pos, log } :: below)

/-- Ends an iteration of the loop at address `ip`. -/
def endIteration (p : Program) (input : Array UInt8) (pos : Nat) (log : List Capture)
    (stack : List Entry) (ip : Nat) : Next :=
  match stack.dropWhile (fun e => !e.isOfLoop ip) with
  | .loop f :: below =>
    match p.fetch? ip with
    | some (.loop l, _) =>
      if l.keepsFrames then keepIteration pos log stack l f
      else commitIteration input pos log below l f
    | some _ => .fail stack
    | none => .malformed
  | _ => .fail stack

/-! ### Execution -/

/-- Executes the instruction at an address. -/
def execute (p : Program) (input : Array UInt8) (ip pos : Nat) (log : List Capture)
    (stack : List Entry) : Next :=
  match p.fetch? ip with
  | none => .malformed
  | some (i, size) =>
    let next := ip + size
    match i with
    | .accept => .accepted pos log stack
    | .inputStart => if pos = 0 then .run next pos log stack else .fail stack
    | .inputEnd => if pos = input.size then .run next pos log stack else .fail stack
    | .split offset => .run next pos log (.alternative (offsetTarget ip offset) pos log :: stack)
    | .jump offset => .run (offsetTarget ip offset) pos log stack
    | .captureStart index => .run next pos log (.capture index pos :: stack)
    | .captureEnd index => closeCapture index next pos log stack
    | .loop l => enterLoop p input ip pos log stack l
    | .loopEnd offset => endIteration p input pos log stack (offsetTarget ip offset)
    | i =>
      match input[pos]? with
      | some b => if i.accepts b then .run next (pos + 1) log stack else .fail stack
      | none => .fail stack

/-! ### Backtracking -/

/-- Takes back the entry of a single-byte loop. -/
def retryByteLoop (p : Program) (input : Array UInt8) (below : List Entry) (l : Loop)
    (f : LoopEntry) : Next :=
  if l.greedy then
    let count := f.count - 1
    .run (l.after f.ip) (f.start + count) f.log
      (if count = l.min.toNat then below else .loop { f with count } :: below)
  else
    match p.fetch? (Loop.body f.ip) with
    | none => .malformed
    | some (i, _) =>
      match input[f.start + f.count]? with
      | some b =>
        if l.allowsMore f.count && i.accepts b then
          .run (l.after f.ip) (f.start + (f.count + 1)) f.log
            (.loop { f with count := f.count + 1 } :: below)
        else .fail below
      | none => .fail below

/-- Takes back the entry of a loop that commits its iterations. -/
def retryLoop (input : Array UInt8) (below : List Entry) (l : Loop) (f : LoopEntry) : Next :=
  let body := Loop.body f.ip
  let after := l.after f.ip
  let resume (f : LoopEntry) (ip : Nat) : Next := .run ip f.pos f.log (.loop f :: below)
  match f.phase with
  | .iterating =>
    if l.greedy ∧ l.min.toNat ≤ f.count then resume { f with phase := .exited } after
    else .fail below
  | .exited =>
    if l.greedy then
      if l.min.toNat < f.count then
        let target := f.count - 1
        let fresh := { f with count := 0, pos := f.start, log := f.startLog }
        if target = 0 then resume fresh after
        else resume { fresh with phase := .replaying target } body
      else .fail below
    else if l.allowsMore f.count ∧ f.pos < input.size then
      resume { f with phase := .iterating } body
    else .fail below
  | _ => .fail below

/-- Takes back the entry between two iterations whose frames are kept. -/
def retryBoundary (below : List Entry) (l : Loop) (f : LoopEntry) : Next :=
  if l.greedy then .run (l.after f.ip) f.pos f.log below
  else .run (Loop.body f.ip) f.pos f.log (.loop { f with phase := .counter } :: below)

/-- Takes the topmost entry. -/
def backtrack (p : Program) (input : Array UInt8) : List Entry → Next
  | [] => .exhausted
  | .alternative ip pos log :: below => .run ip pos log below
  | .capture _ _ :: below => .fail below
  | .loop f :: below =>
    if f.phase = .counter then .fail below
    else
      match p.fetch? f.ip with
      | none => .malformed
      | some (.loop l, _) =>
        if f.phase = .boundary then retryBoundary below l f
        else if l.singleByte then retryByteLoop p input below l f
        else retryLoop input below l f
      | some _ => .fail below

/-- Makes one step. -/
def step (p : Program) (input : Array UInt8) : Config → Next
  | running ip pos log stack => execute p input ip pos log stack
  | failing stack => backtrack p input stack

end Config

end BoundedRegex
