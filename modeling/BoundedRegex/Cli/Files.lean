/-!
# Files

The files around the directory that the program runs in, and what can go wrong when one is read or
written.  `Directory.target` walks along a path up to its last part, which `read` and `write` then
look up; a part that is walked through has to be a directory.
-/

namespace BoundedRegex.Cli

/-- Why a file cannot be read or written. -/
inductive FileError where
  | notFound
  | isDirectory
  | notDirectory
  | nameTooLong
  | other (message : String)
deriving DecidableEq

/-- The wording of an error. -/
def FileError.message : FileError → String
  | notFound => "No such file or directory (os error 2)"
  | isDirectory => "Is a directory (os error 21)"
  | notDirectory => "Not a directory (os error 20)"
  | nameTooLong => "File name too long (os error 36)"
  | other message => message

/-- A text to be written to a file, after what it holds or instead of it. -/
structure Write where
  path : String
  append : Bool
  text : String

/-! ### Places -/

/-- The longest path, in bytes. -/
def maxPathLength : Nat := 4095

/-- The longest part of a path, in bytes. -/
def maxPartLength : Nat := 255

/-- How far up the root is at most: no directory lies deeper, as its path would be too long. -/
def rootHeight : Nat := maxPathLength

/-- A place in the tree of files, seen from the directory that the program runs in: so many
directories up, and from there down through those named. -/
structure Place where
  up : Nat := 0
  down : List String := []
deriving DecidableEq

namespace Place

/-- The root of the tree. -/
def root : Place := { up := rootHeight }

/-- The directory around a place; the root is its own. -/
def parent (p : Place) : Place :=
  if p.down = [] then { up := Nat.min (p.up + 1) rootHeight }
  else { p with down := p.down.dropLast }

/-- The place of a name in a directory. -/
def child (p : Place) (name : String) : Place :=
  { p with down := p.down ++ [name] }

end Place

/-- The parts of a path. -/
def pathParts (path : String) : List String :=
  (path.splitOn "/").filter (· ≠ "")

/-- What a path names: the last part, in a directory.  With a slash after it, it can only be a
directory. -/
structure Target where
  parent : Place
  last : String
  slash : Bool

/-- Whether the last part stands for a directory that has been reached already. -/
def Target.isDots (t : Target) : Bool :=
  t.last = "." || t.last = ".."

/-- The place of a target. -/
def Target.place (t : Target) : Place :=
  t.parent.child t.last

/-! ### Reading and writing -/

/-- The files that are there.  Directories are there for the files in them, and the directory of
the program and those around it are there in any case. -/
structure Directory where
  files : List (Place × List UInt8)

namespace Directory

/-- The directory that holds files of given names. -/
def ofFiles (files : List (String × List UInt8)) : Directory :=
  ⟨files.map fun (name, contents) => ({ down := pathParts name }, contents)⟩

/-- The contents of the file at a place. -/
def file? (d : Directory) (p : Place) : Option (List UInt8) :=
  d.files.lookup p

/-- Whether there is a directory at a place. -/
def hasDirectory (d : Directory) (p : Place) : Bool :=
  p.down = [] || d.files.any fun (q, _) =>
    p.up = q.up && p.down.isPrefixOf q.down && p.down.length < q.down.length

/-- Goes into the directory that a part of a path names. -/
def enter (d : Directory) (p : Place) (part : String) : Except FileError Place :=
  if part = "." then .ok p
  else if part = ".." then .ok p.parent
  else if maxPartLength < part.utf8ByteSize then .error .nameTooLong
  else if d.hasDirectory (p.child part) then .ok (p.child part)
  else if (d.file? (p.child part)).isSome then .error .notDirectory
  else .error .notFound

/-- What a path names. -/
def target (d : Directory) (path : String) : Except FileError Target :=
  if path = "" then .error .notFound
  else if maxPathLength < path.utf8ByteSize then .error .nameTooLong
  else
    let parts := pathParts path
    let start : Place := if path.startsWith "/" then .root else {}
    (parts.dropLast.foldlM d.enter start).map fun parent =>
      { parent, last := parts.getLast?.getD ".", slash := path.endsWith "/" }

/-- The place of a target, where there must be no directory. -/
def placeOf (d : Directory) (t : Target) : Except FileError Place :=
  if t.isDots then .error .isDirectory
  else if maxPartLength < t.last.utf8ByteSize then .error .nameTooLong
  else if d.hasDirectory t.place then .error .isDirectory
  else .ok t.place

/-- The contents of the file at a target. -/
def readAt (d : Directory) (t : Target) : Except FileError (List UInt8) := do
  match d.file? (← d.placeOf t) with
  | some contents => if t.slash then .error .notDirectory else .ok contents
  | none => .error .notFound

/-- The contents of a file. -/
def read (d : Directory) (path : String) : Except FileError (List UInt8) := do
  d.readAt (← d.target path)

/-- The directory with a file at a place, instead of the one that may be there. -/
def put (d : Directory) (p : Place) (contents : List UInt8) : Directory :=
  ⟨d.files.filter (·.1 ≠ p) ++ [(p, contents)]⟩

/-- Writes a file, which is made if it is not there.  No file is made where a slash asks for a
directory, whatever is there. -/
def write (d : Directory) (w : Write) : Except FileError Directory := do
  let t ← d.target w.path
  if t.slash then .error .isDirectory
  else
    let p ← d.placeOf t
    let old := if w.append then (d.file? p).getD [] else []
    .ok (d.put p (old ++ w.text.toUTF8.toList))

end Directory

end BoundedRegex.Cli
