import BoundedRegex.Match.Frame

/-!
# The backtracking machine

The machine runs a program on an input.  `step` makes one step from a state: it executes an
instruction, or, when it is backtracking, takes the topmost frame.  It never recurses; what it may
return to is on a stack of frames, of which the first `sp` are alive.

* A split pushes an alternative.
* A capture pushes a frame with its start.  When it closes, its span goes to the log, and the frame
  is dropped if it is on top, as nothing inside the capture can then be retried.
* A loop that keeps frames pushes a frame before its first iteration, and one after each iteration
  that another may follow.
* Any other loop has one frame.  When an iteration is complete, the frames above that one are
  dropped, so that iterations are atomic.  To retry with an iteration less, a greedy loop replays
  from its start; in a single-byte loop, the offset after `n` iterations is the start plus `n`.
-/

namespace BoundedRegex

/-- What the machine does next. -/
inductive Mode where
  | executing
  | backtracking
deriving DecidableEq

/-- A state of the machine. -/
structure MachineState where
  mode : Mode
  /-- The address of the instruction. -/
  ip : Nat
  /-- The offset in the input. -/
  pos : Nat
  /-- The frames that are alive. -/
  sp : Nat
  /-- The spans in the log. -/
  log : Nat
  frames : Array Frame
  captures : Array Capture
  /-- The most frames that have been alive. -/
  peak : Nat

/-- What comes of a step. -/
inductive StepResult where
  /-- The machine goes on. -/
  | running (s : MachineState)
  /-- The pattern has matched up to the state's offset; backtracking finds further matches. -/
  | accepted (s : MachineState)
  /-- There is nothing left to try. -/
  | exhausted (s : MachineState)
  /-- A buffer is full. -/
  | overflowed (e : MatchError) (s : MachineState)
  /-- No instruction can be decoded at the address. -/
  | malformed (s : MachineState)

namespace MachineState

/-- The start of a run at an offset. -/
def initial (pos : Nat) (frames : Array Frame) (captures : Array Capture) (peak : Nat) :
    MachineState :=
  { mode := .executing, ip := 0, pos, sp := 0, log := 0, frames, captures, peak }

/-- Goes on at an address. -/
def goto (s : MachineState) (ip : Nat) : StepResult :=
  .running { s with mode := .executing, ip }

/-- Gives up the current path. -/
def fail (s : MachineState) : StepResult :=
  .running { s with mode := .backtracking }

/-- Goes on at an address if `ok` holds, and otherwise gives up the current path. -/
def gotoIf (s : MachineState) (ok : Bool) (ip : Nat) : StepResult :=
  if ok then s.goto ip else s.fail

/-- Pushes a frame and goes on as `next` says. -/
def push (s : MachineState) (f : Frame) (next : MachineState → StepResult) : StepResult :=
  if s.sp < s.frames.size then
    next { s with
      frames := s.frames.setIfInBounds s.sp f
      sp := s.sp + 1
      peak := Nat.max s.peak (s.sp + 1) }
  else .overflowed (.scratchExhausted s.frames.size) s

/-- The match that the state's log and offset make with a start. -/
def toMatch (s : MachineState) (start : Nat) : Match :=
  { start, stop := s.pos, captures := (s.captures.extract 0 s.log).toList }

end MachineState

/-- The index of the topmost of the first `sp` frames that `p` holds of. -/
def topmost? (p : Frame → Bool) (frames : Array Frame) : Nat → Option Nat
  | 0 => none
  | sp + 1 => if p (frames.getD sp .blank) then some sp else topmost? p frames sp

/-- Where a run of accepted bytes that starts at `pos` stops, at most `limit` bytes further on. -/
def runEnd (i : Instr) (input : Array UInt8) (pos : Nat) : Nat → Nat
  | 0 => pos
  | limit + 1 =>
    match input[pos]? with
    | some b => if i.accepts b then runEnd i input (pos + 1) limit else pos
    | none => pos

namespace Machine

/-! ### Captures -/

/-- Closes a capture: logs the span that its topmost frame started.  A capture that was never
opened fails, which happens only in code that no pattern gives rise to. -/
def closeCapture (s : MachineState) (index : UInt8) (next : Nat) : StepResult :=
  match topmost? (Frame.opens index) s.frames s.sp with
  | none => s.fail
  | some top =>
    match s.frames.getD top .blank with
    | .capture _ start =>
      if s.log < s.captures.size then
        { s with
          captures := s.captures.setIfInBounds s.log ⟨index, start, s.pos⟩
          log := s.log + 1
          sp := if top + 1 = s.sp then top else s.sp }.goto next
      else .overflowed (.captureBufferExhausted s.captures.size) s
    | _ => s.fail

/-! ### Loops -/

/-- The frame of a loop that is entered. -/
def enteringFrame (s : MachineState) (phase : LoopPhase) (count : Nat) : Frame :=
  .loop
    { ip := s.ip, phase, pos := s.pos, log := s.log, start := s.pos, startLog := s.log, count }

/-- Runs a whole single-byte loop.  It needs a frame only if some other number of iterations may
be tried later. -/
def runByteLoop (input : Array UInt8) (s : MachineState) (l : Loop) (body : Instr) :
    StepResult :=
  let rest := input.size - s.pos
  let limit :=
    if !l.greedy then l.min.toNat
    else if l.max = unboundedCount then rest
    else l.max.toNat
  let count := runEnd body input s.pos limit - s.pos
  let leave (s : MachineState) : StepResult :=
    { s with pos := s.pos + count }.goto (l.after s.ip)
  let mayRetry : Bool :=
    if l.greedy then l.min.toNat < count else l.allowsMore count && count < rest
  if count < l.min.toNat then s.fail
  else if mayRetry then s.push (enteringFrame s .exited count) leave
  else leave s

/-- Enters the loop at the state's address. -/
def enterLoop (p : Program) (input : Array UInt8) (s : MachineState) (l : Loop) : StepResult :=
  let body := Loop.body s.ip
  let after := l.after s.ip
  if l.keepsFrames then
    let phase := if l.min = 0 then LoopPhase.boundary else .counter
    s.push (enteringFrame s phase 0) (·.goto (if l.greedy ∨ 0 < l.min then body else after))
  else if !l.singleByte then
    if !l.greedy ∧ l.min = 0 then s.push (enteringFrame s .exited 0) (·.goto after)
    else s.push (enteringFrame s .iterating 0) (·.goto body)
  else
    match p.fetch? body with
    | some (i, _) => runByteLoop input s l i
    | none => .malformed s

/-- Ends an iteration of a loop that keeps frames; `f` is the frame pushed before it.  The new frame
does not hold where the loop was entered, to which no such loop goes back. -/
def keepIteration (s : MachineState) (l : Loop) (f : LoopFrame) : StepResult :=
  let body := Loop.body f.ip
  let after := l.after f.ip
  let count := f.count + 1
  if l.allowsMore count then
    let needed : Bool := count < l.min.toNat
    let phase := if needed then LoopPhase.counter else .boundary
    s.push
      (.loop { ip := f.ip, phase, pos := s.pos, log := s.log, start := 0, startLog := 0, count })
      (·.goto (if l.greedy || needed then body else after))
  else s.goto after

/-- Ends an iteration of any other loop, whose frame `f` is at index `top`: the frames above it are
dropped. -/
def commitIteration (input : Array UInt8) (s : MachineState) (l : Loop) (top : Nat)
    (f : LoopFrame) : StepResult :=
  let progressed : Bool := s.pos ≠ f.pos
  let count := f.count + 1
  let again : Bool :=
    match f.phase with
    | .replaying target => count < target
    | .iterating =>
      count < l.min.toNat ||
        (l.greedy && progressed && s.pos < input.size && l.allowsMore count)
    | _ => false
  let phase :=
    if again then f.phase else if progressed || l.greedy then .exited else .stalled
  { s with
    sp := top + 1
    frames := s.frames.setIfInBounds top (.loop { f with phase, count, pos := s.pos, log := s.log })
    }.goto (if again then Loop.body f.ip else l.after f.ip)

/-- Ends an iteration of the loop at address `ip`, which fails if that loop has no frame. -/
def endIteration (p : Program) (input : Array UInt8) (s : MachineState) (ip : Nat) : StepResult :=
  match topmost? (Frame.isOfLoop ip) s.frames s.sp with
  | none => s.fail
  | some top =>
    match s.frames.getD top .blank, p.fetch? ip with
    | .loop f, some (.loop l, _) =>
      if l.keepsFrames then keepIteration s l f else commitIteration input s l top f
    | .loop _, none => .malformed s
    | _, _ => s.fail

/-! ### Execution -/

/-- Executes the instruction at the state's address. -/
def execute (p : Program) (input : Array UInt8) (s : MachineState) : StepResult :=
  match p.fetch? s.ip with
  | none => .malformed s
  | some (i, size) =>
    let next := s.ip + size
    match i with
    | .accept => .accepted s
    | .inputStart => s.gotoIf (s.pos = 0) next
    | .inputEnd => s.gotoIf (s.pos = input.size) next
    | .split offset =>
      s.push (.alternative (offsetTarget s.ip offset) s.pos s.log) (·.goto next)
    | .jump offset => s.goto (offsetTarget s.ip offset)
    | .captureStart index => s.push (.capture index s.pos) (·.goto next)
    | .captureEnd index => closeCapture s index next
    | .loop l => enterLoop p input s l
    | .loopEnd offset => endIteration p input s (offsetTarget s.ip offset)
    | i =>
      match input[s.pos]? with
      | some b => if i.accepts b then { s with pos := s.pos + 1 }.goto next else s.fail
      | none => s.fail

/-! ### Backtracking -/

/-- Takes back the frame of a single-byte loop: one iteration less in a greedy loop, which needs
the frame no more when it is down to the least number, and one more in any other, if the input
allows it. -/
def retryByteLoop (p : Program) (input : Array UInt8) (s : MachineState) (l : Loop) (top : Nat)
    (f : LoopFrame) : StepResult :=
  let resume (s : MachineState) (count : Nat) : StepResult :=
    { s with pos := f.start + count, log := f.log }.goto (l.after f.ip)
  if l.greedy then
    let count := f.count - 1
    if count = l.min.toNat then resume { s with sp := top } count
    else
      let frames := s.frames.setIfInBounds top (.loop { f with count })
      resume { s with frames } count
  else
    match p.fetch? (Loop.body f.ip) with
    | none => .malformed s
    | some (i, _) =>
      match input[f.start + f.count]? with
      | some b =>
        if l.allowsMore f.count && i.accepts b then
          let frames := s.frames.setIfInBounds top (.loop { f with count := f.count + 1 })
          resume { s with frames } (f.count + 1)
        else { s with sp := top }.fail
      | none => { s with sp := top }.fail

/-- Takes back the frame of a loop that commits its iterations: leaves it with the iterations
finished so far, replays it with one less, or iterates once more. -/
def retryLoop (input : Array UInt8) (s : MachineState) (l : Loop) (top : Nat) (f : LoopFrame) :
    StepResult :=
  let body := Loop.body f.ip
  let after := l.after f.ip
  let resume (f : LoopFrame) (ip : Nat) : StepResult :=
    { s with
      frames := s.frames.setIfInBounds top (.loop f)
      pos := f.pos
      log := f.log }.goto ip
  match f.phase with
  | .iterating =>
    if l.greedy ∧ l.min.toNat ≤ f.count then resume { f with phase := .exited } after
    else { s with sp := top }.fail
  | .exited =>
    if l.greedy then
      if l.min.toNat < f.count then
        let target := f.count - 1
        let fresh := { f with count := 0, pos := f.start, log := f.startLog }
        if target = 0 then resume fresh after
        else resume { fresh with phase := .replaying target } body
      else { s with sp := top }.fail
    else if l.allowsMore f.count ∧ f.pos < input.size then
      resume { f with phase := .iterating } body
    else { s with sp := top }.fail
  | _ => { s with sp := top }.fail

/-- Takes back the frame between two iterations whose frames are kept: a greedy loop is left
there, any other iterates once more. -/
def retryBoundary (s : MachineState) (l : Loop) (top : Nat) (f : LoopFrame) : StepResult :=
  if l.greedy then
    { s with sp := top, pos := f.pos, log := f.log }.goto (l.after f.ip)
  else
    { s with
      frames := s.frames.setIfInBounds top (.loop { f with phase := .counter })
      pos := f.pos
      log := f.log }.goto (Loop.body f.ip)

/-- Takes the topmost frame. -/
def backtrack (p : Program) (input : Array UInt8) (s : MachineState) : StepResult :=
  match s.sp with
  | 0 => .exhausted s
  | top + 1 =>
    match s.frames.getD top .blank with
    | .alternative ip pos log => { s with sp := top, pos, log }.goto ip
    | .capture _ _ => { s with sp := top }.fail
    | .loop f =>
      if f.phase = .counter then { s with sp := top }.fail
      else
        match p.fetch? f.ip with
        | none => .malformed s
        | some (.loop l, _) =>
          if f.phase = .boundary then retryBoundary s l top f
          else if l.singleByte then retryByteLoop p input s l top f
          else retryLoop input s l top f
        | some _ => { s with sp := top }.fail

/-- Makes one step. -/
def step (p : Program) (input : Array UInt8) (s : MachineState) : StepResult :=
  match s.mode with
  | .executing => execute p input s
  | .backtracking => backtrack p input s

end Machine

end BoundedRegex
