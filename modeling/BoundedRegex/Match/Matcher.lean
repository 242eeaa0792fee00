import BoundedRegex.Match.Machine
import BoundedRegex.Regex.Basic

/-!
# The matcher

A matcher runs a compiled pattern with buffers for frames and captures that are made once and
serve every attempt.  An attempt starts at an offset and reports matches one by one, in the order
in which backtracking finds them, to a callback that says when to stop.

An attempt takes at most `stepLimit` steps.  The limit is there so that an attempt is a function
of its input; the default is out of reach of any run.
-/

namespace BoundedRegex

/-- What is to be done after a match has been reported. -/
inductive Action where
  | goOn
  | stop
deriving DecidableEq

/-- A callback: it takes what it has gathered and a match, and gives what it has gathered now and
what is to be done. -/
abbrev Callback (σ : Type) := σ → Match → σ × Action

/-- A pattern with the buffers it is matched with. -/
structure Matcher where
  program : Program
  frames : Array Frame
  captures : Array Capture
  /-- The most frames that any attempt has had alive. -/
  peak : Nat := 0
  /-- The most steps of an attempt. -/
  stepLimit : Nat := 0x4000000000000000

/-- What an attempt comes to: the match at which the callback stopped it, or none; what the
callback has gathered; and the matcher, with its buffers as the attempt leaves them. -/
structure Attempt (σ : Type) where
  outcome : Except MatchError (Option Match)
  gathered : σ
  matcher : Matcher

namespace Matcher

/-- A matcher for a pattern, with `frames` frames and `captures` slots for captures. -/
def ofRegex (r : Regex) (frames captures : Nat) : Matcher :=
  { program := .ofCode r.code
    frames := Array.replicate frames .blank
    captures := Array.replicate captures .blank }

/-- Runs the machine from a state, for at most as many steps as given; `limit` is the number that
is reported when they do not suffice. -/
def run {σ : Type} (p : Program) (input : Array UInt8) (start limit : Nat) (f : Callback σ) :
    Nat → σ → MachineState → Except MatchError (Option Match) × σ × MachineState
  | 0, gathered, s => (.error (.stepsExhausted limit), gathered, s)
  | steps + 1, gathered, s =>
    match Machine.step p input s with
    | .running s => run p input start limit f steps gathered s
    | .accepted s =>
      let found := s.toMatch start
      match f gathered found with
      | (gathered, .stop) => (.ok (some found), gathered, s)
      | (gathered, .goOn) =>
        run p input start limit f steps gathered { s with mode := .backtracking }
    | .exhausted s => (.ok none, gathered, s)
    | .overflowed e s => (.error e, gathered, s)
    | .malformed s => (.ok none, gathered, s)

/-- Reports the matches that start at an offset, in order of priority, until the callback stops.
There are none beyond the end of the input. -/
def tryMatch {σ : Type} (m : Matcher) (input : Array UInt8) (start : Nat) (f : Callback σ)
    (gathered : σ) : Attempt σ :=
  if start ≤ input.size then
    match m with
    | { program, frames, captures, peak, stepLimit } =>
      let (outcome, gathered, s) :=
        run program input start stepLimit f stepLimit gathered
          (.initial start frames captures peak)
      { outcome, gathered
        matcher := { program, frames := s.frames, captures := s.captures, peak := s.peak, stepLimit } }
  else { outcome := .ok none, gathered, matcher := m }

/-- The callback that stops at the first match. -/
def firstOnly : Callback Unit := fun _ _ => ((), .stop)

/-- The first match that starts at an offset. -/
def matchAt (m : Matcher) (input : Array UInt8) (start : Nat) :
    Except MatchError (Option Match) × Matcher :=
  let a := m.tryMatch input start firstOnly ()
  (a.outcome, a.matcher)

/-- Whether the pattern starts with an anchor to the start of the input. -/
def isAnchored (m : Matcher) : Bool :=
  match m.program.fetch? 0 with
  | some (.inputStart, _) => true
  | _ => false

/-- The first match at the first of `count` offsets, from `start` on, that has one. -/
def search (m : Matcher) (input : Array UInt8) (start : Nat) :
    Nat → Except MatchError (Option Match) × Matcher
  | 0 => (.ok none, m)
  | count + 1 =>
    match m.matchAt input start with
    | (.ok none, m) => m.search input (start + 1) count
    | found => found

/-- The leftmost match that starts at an offset or after it.  A pattern anchored to the start is
tried only there. -/
def findAt (m : Matcher) (input : Array UInt8) (start : Nat) :
    Except MatchError (Option Match) × Matcher :=
  if m.isAnchored then m.search input start (if start = 0 then 1 else 0)
  else m.search input start (input.size + 1 - start)

end Matcher

end BoundedRegex
