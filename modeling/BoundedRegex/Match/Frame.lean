import BoundedRegex.Code.Program

/-!
# Frames and captures

What a matcher keeps while it runs: a stack of frames, each a place to which it may return, and a
log of the spans of captures in the order in which they were closed.
-/

namespace BoundedRegex

/-- What a loop is doing. -/
inductive LoopPhase where
  /-- Iterating for the first time. -/
  | iterating
  /-- Iterating again, up to `target` times, after the same iterations have been given up. -/
  | replaying (target : Nat)
  /-- Over; the matcher is somewhere after the loop. -/
  | exited
  /-- Over for good: the last iteration made no progress. -/
  | stalled
  /-- Between iterations whose frames are kept: a greedy loop may still leave here, any other may
  still iterate. -/
  | boundary
  /-- Between iterations whose frames are kept, with nothing left to try. -/
  | counter
deriving DecidableEq

/-- The frame of a loop. -/
structure LoopFrame where
  /-- The address of the loop. -/
  ip : Nat
  phase : LoopPhase
  /-- The offset of the input after the last finished iteration. -/
  pos : Nat
  /-- The length of the log at `pos`. -/
  log : Nat
  /-- The offset at which the loop was entered; zero in a frame pushed after an iteration. -/
  start : Nat
  /-- The length of the log when the loop was entered; zero in a frame pushed after an iteration. -/
  startLog : Nat
  /-- The finished iterations. -/
  count : Nat
deriving DecidableEq

/-- A frame of the stack. -/
inductive Frame where
  /-- An alternative at address `ip`, to be tried from offset `pos` with `log` spans. -/
  | alternative (ip pos log : Nat)
  /-- A capture that started at `pos`. -/
  | capture (index : UInt8) (pos : Nat)
  | loop (l : LoopFrame)
deriving DecidableEq

namespace Frame

/-- A frame that offers nothing, for filling buffers. -/
def blank : Frame := .alternative 0 0 0

instance : Inhabited Frame := ⟨.blank⟩

/-- Whether a frame holds the start of a capture. -/
def opens (index : UInt8) : Frame → Bool
  | .capture i _ => i = index
  | _ => false

/-- Whether a frame is of the loop at an address. -/
def isOfLoop (ip : Nat) : Frame → Bool
  | .loop f => f.ip = ip
  | _ => false

end Frame

/-- The span of a capture, the end not included. -/
structure Capture where
  index : UInt8
  start : Nat
  stop : Nat
deriving DecidableEq

/-- A span for filling buffers. -/
def Capture.blank : Capture := ⟨0, 0, 0⟩

instance : Inhabited Capture := ⟨.blank⟩

/-- A match: its span, the end not included, and the log. -/
structure Match where
  start : Nat
  stop : Nat
  captures : List Capture
deriving DecidableEq

namespace Match

/-- The spans of a capture, in the order of the log. -/
def group (m : Match) (index : Nat) : List Capture :=
  m.captures.filter fun c => c.index.toNat = index

/-- The last span of a capture. -/
def last? (m : Match) (index : Nat) : Option Capture :=
  (m.group index).getLast?

end Match

/-- Why a match could not be carried through. -/
inductive MatchError where
  /-- The frames do not suffice. -/
  | scratchExhausted (capacity : Nat)
  /-- The slots for captures do not suffice. -/
  | captureBufferExhausted (capacity : Nat)
  /-- The attempt took more steps than were allowed. -/
  | stepsExhausted (limit : Nat)
deriving DecidableEq

/-- The wording of an error. -/
def MatchError.message : MatchError → String
  | scratchExhausted capacity =>
    "backtracking scratch exhausted (capacity: " ++ toString capacity ++ ")"
  | captureBufferExhausted capacity =>
    "capture buffer exhausted (capacity: " ++ toString capacity ++ ")"
  | stepsExhausted limit => "too many steps (limit: " ++ toString limit ++ ")"

end BoundedRegex
