import BoundedRegex.Cli.Arguments
import BoundedRegex.Cli.Files
import BoundedRegex.Cli.Scan
import BoundedRegex.Compile.Compiler
import BoundedRegex.Settings
import BoundedRegex.Snippet

/-!
# The program

What the program prints and writes, as a function of its arguments and of the files it reads.
-/

namespace BoundedRegex.Cli

/-- What the program reads from. -/
structure Surroundings where
  /-- The contents of the file at a path. -/
  read : String → Except FileError (List UInt8)
  /-- The settings file of the user, if there is one. -/
  homeSettings : Option (List UInt8)

/-- What an invocation comes to: text for the standard output; a text for a file; and the message
of an error, if one ended it. -/
structure Outcome where
  output : String := ""
  write : Option Write := none
  failure : Option String := none

/-- What a run of the program shows. -/
structure Report where
  exitCode : UInt8
  output : String
  errors : String

namespace Outcome

/-- An invocation that ends with an error. -/
def failed (message : String) : Outcome :=
  { failure := some message }

/-- The report of an outcome, once what it writes has been written. -/
def report (o : Outcome) : Report :=
  match o.failure with
  | none => ⟨0, o.output, ""⟩
  | some message => ⟨1, o.output, "error: " ++ message ++ "\n"⟩

/-- The outcome when the text for the file cannot be written. -/
def unwritten (w : Write) (e : FileError) : Outcome :=
  failed ("can not write `" ++ w.path ++ "`: " ++ e.message)

end Outcome

/-- How the program is used. -/
def usageText : String :=
  "Usage: brex [-C FILE] [--max-depth DEPTH] COMMAND\n\n" ++
    "  check PATTERN\n" ++
    "  disasm PATTERN\n" ++
    "  compile PATTERN [-n NAME] [-o FILE [-a]]\n" ++
    "  scan PATTERN FILE... [--anchored] [--capture-slots SLOTS]\n"

/-- The report that shows a notice. -/
def Notice.report : Notice → Report
  | usage => ⟨2, "", usageText⟩
  | help => ⟨0, usageText, ""⟩
  | version => ⟨0, "brex-cli 0.1.0\n", ""⟩

/-! ### Commands -/

/-- The characters that bytes of UTF-8 start. -/
def leadingBytes (bytes : List UInt8) : Nat :=
  bytes.countP fun b => b &&& 0xc0 ≠ 0x80

/-- An error in a pattern, with the pattern and a mark below the place. -/
def syntaxErrorText (pattern : String) (e : SyntaxError) : String :=
  let column := leadingBytes (pattern.toUTF8.toList.take e.position)
  e.message ++ "\n\n  " ++ pattern ++ "\n  " ++ String.ofList (List.replicate column ' ') ++ "^"

/-- Compiles a pattern with the given settings.  The buffer is as large as the settings allow for
code, and has room for the longest header. -/
def compilePattern (s : Settings) (pattern : String) : Except String Regex :=
  let compiler : Compiler := { maxNesting := s.maxNesting }
  (compiler.compile pattern.toUTF8.toList (blankBuffer (s.codeCapacity + maxHeaderLength))).mapError
    (syntaxErrorText pattern)

/-- Goes on with a compiled pattern, or ends with the error in it. -/
def withPattern (s : Settings) (pattern : String) (f : Regex → Outcome) : Outcome :=
  match compilePattern s pattern with
  | .ok r => f r
  | .error message => .failed message

/-- Tells the size of a compiled pattern and of the buffers it needs. -/
def Outcome.checked (r : Regex) : Outcome :=
  { output :=
      "ok: " ++ toString r.toBytes.length ++ " bytes, scratch depth: " ++
        toString r.scratchDepth.toNat ++ ", captures: " ++ toString r.captures.toNat ++ " (" ++
        toString r.loopCaptures.length ++ " inside loops)\n" }

/-- Lists the code of a compiled pattern. -/
def Outcome.disassembled (r : Regex) : Outcome :=
  { output :=
      "code length: " ++ toString r.code.length ++ "\nscratch depth: " ++
        toString r.scratchDepth.toNat ++ "\ncaptures: " ++ toString r.captures.toNat ++ "\n" ++
        String.join (r.loopCaptures.map fun i => "  <" ++ toString i ++ "> inside loop\n") ++
        r.listing }

/-- Exports a compiled pattern under a name, to a file or to the standard output.  A declaration
that is appended to a file has an empty line in front of it. -/
def Outcome.compiled (r : Regex) (pattern name : String) (path : Option String) (append : Bool) : Outcome :=
  match Snippet.render r name (some pattern.toUTF8.toList) with
  | .error e => .failed ("`" ++ name ++ "` is not a valid name: " ++ e.message)
  | .ok text =>
    match path with
    | none => { output := text }
    | some path => { write := some { path, append, text := if append then "\n" ++ text else text } }

/-- Scans files one after another, up to the first that cannot be read or scanned. -/
def Outcome.scanned (read : String → Except FileError (List UInt8)) (anchored : Bool) (m : Matcher) :
    List String → Outcome
  | [] => {}
  | path :: paths =>
    match read path with
    | .error e => .failed ("can not read `" ++ path ++ "`: " ++ e.message)
    | .ok contents =>
      let input := contents.toArray
      let result := Scan.ofInput m input anchored
      let text := result.text path input
      match result.error with
      | some e => { output := text, failure := some ("error scanning `" ++ path ++ "`: " ++ e.message) }
      | none =>
        let later := scanned read anchored result.matcher paths
        { later with output := text ++ later.output }

/-- Executes a command. -/
def Command.execute (read : String → Except FileError (List UInt8)) (s : Settings) :
    Command → Outcome
  | .check pattern => withPattern s pattern .checked
  | .disassemble pattern => withPattern s pattern .disassembled
  | .compile pattern name output append =>
    withPattern s pattern fun r => .compiled r pattern (name.getD s.exportName) output append
  | .scan pattern paths anchored captureSlots =>
    withPattern s pattern fun r =>
      let slots := captureSlots.getD s.captureSlots
      .scanned read anchored (.ofRegex r r.scratchDepth.toNat slots) paths

/-! ### Invocations -/

/-- The settings for an invocation: those of the file it names, which must be valid, or those of
the user, or the defaults. -/
def Surroundings.settings (w : Surroundings) : Option String → Except String Settings
  | some path =>
    let explain (message : String) : String := "invalid config file `" ++ path ++ "`: " ++ message
    match w.read path with
    | .error e => .error (explain e.message)
    | .ok contents => (Settings.ofBytes contents).mapError (explain ·.message)
  | none =>
    match w.homeSettings.map Settings.ofBytes with
    | some (.ok s) => .ok s
    | _ => .ok {}

/-- Whether there is a file or a directory at a path. -/
def Surroundings.has (w : Surroundings) (path : String) : Bool :=
  match w.read path with
  | .error .notFound | .error .notDirectory | .error .nameTooLong => false
  | _ => true

/-- Executes an invocation, or gives a notice instead. -/
def Invocation.execute (w : Surroundings) (i : Invocation) : Except Notice Outcome :=
  if i.settingsPath.any (!w.has ·) then .error .usage
  else
    match i.request with
    | .notice n => .error n
    | .run maxDepth command =>
      match w.settings i.settingsPath with
      | .error message => .ok (.failed message)
      | .ok s => .ok (command.execute w.read { s with maxNesting := maxDepth.getD s.maxNesting })

/-! ### Runs -/

/-- The name of the settings file of a user. -/
def settingsFile : String := ".brex.toml"

/-- The files around the program, and what it does with them. -/
structure Files (m : Type → Type) where
  /-- The contents of the file at a path. -/
  read : String → m (Except FileError (List UInt8))
  /-- The settings file of the user, if there is one. -/
  homeSettings : m (Option (List UInt8))
  write : Write → m (Except FileError Unit)

section

variable {m : Type → Type} [Monad m]

/-- Reads the files that an invocation names, and the settings of the user. -/
def Files.surroundings (files : Files m) (i : Invocation) : m Surroundings := do
  let contents ← i.reads.mapM fun path => do return (path, ← files.read path)
  return {
    read := fun path => (contents.lookup path).getD (.error .notFound)
    homeSettings := ← files.homeSettings }

/-- Writes the file that an invocation has come to, if any, and reports. -/
def Files.conclude (files : Files m) : Except Notice Outcome → m Report
  | .error n => return n.report
  | .ok o =>
    match o.write with
    | none => return o.report
    | some w => do
      match ← files.write w with
      | .ok () => return o.report
      | .error e => return (Outcome.unwritten w e).report

/-- Runs the program. -/
def Files.perform (files : Files m) (arguments : List String) : m Report := do
  let i := Invocation.ofArguments arguments
  files.conclude (i.execute (← files.surroundings i))

end

/-- The files of a directory that the program runs in, and that is also the user's own. -/
def Files.ofDirectory : Files (StateM Directory) where
  read path := return (← get).read path
  homeSettings := return ((← get).read settingsFile).toOption
  write w := do
    match (← get).write w with
    | .ok d =>
      set d
      return .ok ()
    | .error e => return .error e

/-- Runs the program in a directory. -/
def Directory.run (d : Directory) (arguments : List String) : Directory × Report :=
  ((Files.ofDirectory.perform arguments).run d).swap

end BoundedRegex.Cli
