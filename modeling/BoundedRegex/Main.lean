import BoundedRegex.Cli.Program

/-!
# The command line

Runs the program on the files of the system, and prints what it reports.
-/

namespace BoundedRegex.Cli

/-- What went wrong with a file. -/
def FileError.ofIO : IO.Error → FileError
  | .noFileOrDirectory .. => .notFound
  | .inappropriateType _ 20 _ => .notDirectory
  | .inappropriateType .. => .isDirectory
  | .invalidArgument _ 36 _ => .nameTooLong
  | .permissionDenied _ code details => .other (details ++ " (os error " ++ toString code ++ ")")
  | e => .other (toString e)

/-- Does an action on a file. -/
def tryFile {α : Type} (action : IO α) : IO (Except FileError α) := do
  match ← action.toBaseIO with
  | .ok a => return .ok a
  | .error e => return .error (.ofIO e)

/-- The contents of a file. -/
def readFile (path : String) : IO (Except FileError (List UInt8)) := do
  return (← tryFile (IO.FS.withFile path .read (·.readBinToEnd))).map (·.toList)

/-- The settings file of the user, if there is one. -/
def readHomeSettings : IO (Option (List UInt8)) := do
  match ← IO.getEnv "HOME" with
  | some home => return (← readFile (home ++ "/" ++ settingsFile)).toOption
  | none => return none

/-- Writes a text to a file. -/
def writeFile (w : Write) : IO (Except FileError Unit) :=
  tryFile do
    let mode := if w.append then IO.FS.Mode.append else IO.FS.Mode.write
    IO.FS.withFile w.path mode (·.putStr w.text)

/-- The files of the system. -/
def Files.ofSystem : Files IO where
  read := readFile
  homeSettings := readHomeSettings
  write := writeFile

end BoundedRegex.Cli

def main (arguments : List String) : IO UInt32 := do
  let r ← BoundedRegex.Cli.Files.ofSystem.perform arguments
  (← IO.getStdout).putStr r.output
  (← IO.getStderr).putStr r.errors
  return r.exitCode.toUInt32
