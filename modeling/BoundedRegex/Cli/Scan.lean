import BoundedRegex.Match.Matcher
import BoundedRegex.Text.Quoted

/-!
# Scanning

The matches of a pattern in an input that do not overlap, from left to right.
-/

namespace BoundedRegex.Cli

/-- What a scan finds, and the error that ended it, if one did. -/
structure Scan where
  found : List Match
  error : Option MatchError
  matcher : Matcher

namespace Scan

/-- Where the search goes on after a match: at its end, or one byte further if the match is empty,
so that it is not found again. -/
def resumeAfter (m : Match) : Nat :=
  if m.start = m.stop then m.stop + 1 else m.stop

/-- Searches again and again, from an offset on, at most as many times as given. -/
def searches (m : Matcher) (input : Array UInt8) : Nat → Nat → Scan
  | 0, _ => ⟨[], none, m⟩
  | rounds + 1, start =>
    if start ≤ input.size then
      match m.findAt input start with
      | (.error e, m) => ⟨[], some e, m⟩
      | (.ok none, m) => ⟨[], none, m⟩
      | (.ok (some found), m) =>
        let later := searches m input rounds (resumeAfter found)
        { later with found := found :: later.found }
    else ⟨[], none, m⟩

/-- The matches in an input; an anchored scan finds only one at the start.  As every search starts
further right than the one before it, a search for each offset suffices. -/
def ofInput (m : Matcher) (input : Array UInt8) (anchored : Bool) : Scan :=
  if anchored then
    match m.matchAt input 0 with
    | (.error e, m) => ⟨[], some e, m⟩
    | (.ok found, m) => ⟨found.toList, none, m⟩
  else searches m input (input.size + 1) 0

/-- A span as text: its offset, its length, and the bytes in it. -/
def spanText (input : Array UInt8) (start stop : Nat) : String :=
  "0x" ++ Text.hex 1 start ++ ":" ++ toString (stop - start) ++ ": " ++
    Text.quoted (input.extract start stop).toList

/-- The lines for a match: its span, and below it those of the captures. -/
def matchText (input : Array UInt8) (m : Match) : String :=
  spanText input m.start m.stop ++ "\n" ++
    String.join (m.captures.map fun c =>
      "  <" ++ toString c.index.toNat ++ "> " ++ spanText input c.start c.stop ++ "\n")

/-- The lines for the matches in an input, under its name; none if there is no match. -/
def text (s : Scan) (name : String) (input : Array UInt8) : String :=
  if s.found = [] then ""
  else name ++ "\n" ++ String.join (s.found.map (matchText input))

end Scan

end BoundedRegex.Cli
