import BoundedRegex.Text.Numeral

/-!
# Arguments of the command line

`Invocation.ofArguments` tells what a list of arguments asks for.  Options stand before or after
words; a value follows its option, or is attached to it (`--name=X`, `-nX`, `-n=X`).  An option is
given once at most, and after `--` every argument is a word.

Arguments count from left to right, and the first that is wrong, or asks for help or the version,
ends the reading.  A value that follows its option is judged when the next argument is read; the
name of a command is read by another `Grammar`, and does not count as the next.
-/

namespace BoundedRegex.Cli

/-- What is to be done. -/
inductive Command where
  | check (pattern : String)
  | disassemble (pattern : String)
  | compile (pattern : String) (name output : Option String) (append : Bool)
  | scan (pattern : String) (paths : List String) (anchored : Bool) (captureSlots : Option Nat)

/-- What is shown instead of doing anything. -/
inductive Notice where
  | usage
  | help
  | version
deriving DecidableEq

/-- What arguments ask for. -/
inductive Request where
  | notice (n : Notice)
  /-- A command, and how deep groups may be nested, if that is given. -/
  | run (maxDepth : Option Nat) (command : Command)

/-- What a list of arguments comes to. -/
structure Invocation where
  /-- The settings file, if one is named.  It must be there, also for a notice. -/
  settingsPath : Option String
  request : Request

/-- The files that an invocation reads. -/
def Invocation.reads (i : Invocation) : List String :=
  match i.request with
  | .run _ (.scan _ paths _ _) => i.settingsPath.toList ++ paths
  | _ => i.settingsPath.toList

/-! ### Grammars -/

/-- What an option does. -/
inductive OptionKind where
  /-- It takes a value, of which not every one may be accepted. -/
  | value (accepts : String → Bool)
  | flag
  | notice (n : Notice)

/-- An option. -/
structure OptionSpec where
  long : String
  short : Option Char := none
  kind : OptionKind

/-- What may stand among the arguments of the program, or of a command. -/
structure Grammar where
  options : List OptionSpec
  /-- Whether a word may follow so many others. -/
  acceptsWord : Nat → String → Bool := fun _ _ => false
  /-- Whether the first word ends the reading, as the name of a command. -/
  namesCommand : Bool := false

namespace OptionSpec

/-- Whether a value is the number of something. -/
def isNumber (value : String) : Bool :=
  (Text.size? value.toList).isSome

/-- Whether a value can be a path. -/
def isPath (value : String) : Bool :=
  value ≠ ""

/-- The option for help. -/
def help : OptionSpec := { long := "help", short := some 'h', kind := .notice .help }

/-- The option for the depth of groups, which any command takes. -/
def maxDepth : OptionSpec := { long := "max-depth", kind := .value isNumber }

end OptionSpec

namespace Grammar

/-- The arguments in front of the command. -/
def main : Grammar :=
  { options :=
      [{ long := "config", short := some 'C', kind := .value fun _ => true }, .maxDepth, .help,
        { long := "version", short := some 'V', kind := .notice .version }]
    namesCommand := true }

/-- A command that takes a pattern only, with options of its own. -/
def ofPattern (options : List OptionSpec) : Grammar :=
  { options := options ++ [.maxDepth, .help], acceptsWord := fun count _ => count = 0 }

/-- The arguments of a scan: a pattern, and paths. -/
def scan : Grammar :=
  { options :=
      [{ long := "anchored", kind := .flag },
        { long := "capture-slots", kind := .value OptionSpec.isNumber }, .maxDepth, .help]
    acceptsWord := fun count word => count = 0 || OptionSpec.isPath word }

/-- The commands. -/
def commands : List (String × Grammar) :=
  [("check", ofPattern []),
    ("compile", ofPattern
      [{ long := "append", short := some 'a', kind := .flag },
        { long := "name", short := some 'n', kind := .value fun _ => true },
        { long := "output", short := some 'o', kind := .value OptionSpec.isPath }]),
    ("disasm", ofPattern []),
    ("scan", scan)]

end Grammar

/-! ### Reading -/

/-- A value that has not been judged. -/
structure Pending where
  long : String
  accepts : String → Bool
  value : String

/-- Options with their values, and words. -/
structure Found where
  options : List (String × String) := []
  words : List String := []
  pending : Option Pending := none

/-- A reading that may end with a notice; what had been found then goes with it. -/
abbrev Reading (α : Type) := Except (Notice × Found) α

namespace Found

/-- The value of an option. -/
def value? (f : Found) (long : String) : Option String :=
  f.options.lookup long

/-- Whether an option is given. -/
def given (f : Found) (long : String) : Bool :=
  (f.value? long).isSome

/-- The number that is the value of an option. -/
def number? (f : Found) (long : String) : Option Nat :=
  (f.value? long).bind fun v => Text.size? v.toList

/-- Ends the reading. -/
def stop {α : Type} (f : Found) (n : Notice) : Reading α :=
  .error (n, f)

/-- Adds an option, which must not be given yet. -/
def addOption (f : Found) (long : String) (accepts : String → Bool) (value : String) :
    Reading Found :=
  if f.given long || !accepts value then f.stop .usage
  else .ok { f with options := (long, value) :: f.options }

/-- Judges the pending value. -/
def settle (f : Found) : Reading Found :=
  match f.pending with
  | none => .ok f
  | some p => { f with pending := none }.addOption p.long p.accepts p.value

/-- Adds a word. -/
def addWord (g : Grammar) (f : Found) (word : String) : Reading Found :=
  if g.acceptsWord f.words.length word then .ok { f with words := f.words ++ [word] }
  else f.stop .usage

end Found

/-- An option that waits for its value. -/
structure Waiting where
  long : String
  accepts : String → Bool

/-- Whether an argument is an option, or the mark after which there are none. -/
def isOption (argument : String) : Bool :=
  argument.startsWith "-" && argument ≠ "-"

/-- Reads the letters after a single dash.  A letter whose option takes a value takes the rest of
them, after an equals sign if there is one; if nothing is left, it waits for the next argument. -/
def readLetters (g : Grammar) (f : Found) : List Char → Reading (Found × Option Waiting)
  | [] => .ok (f, none)
  | c :: rest =>
    match g.options.find? (·.short = some c) with
    | none => f.stop .usage
    | some { long, kind, .. } =>
      match kind, rest with
      | .notice n, _ => f.stop n
      | .flag, _ => do readLetters g (← f.addOption long (fun _ => true) "") rest
      | .value accepts, [] => .ok (f, some ⟨long, accepts⟩)
      | .value accepts, '=' :: value => do
        return (← f.addOption long accepts (String.ofList value), none)
      | .value accepts, value => do
        return (← f.addOption long accepts (String.ofList value), none)

/-- Reads what follows two dashes. -/
def readLong (g : Grammar) (f : Found) (text : List Char) : Reading (Found × Option Waiting) :=
  let name := String.ofList (text.takeWhile (· ≠ '='))
  match g.options.find? (·.long = name) with
  | none => f.stop .usage
  | some { long, kind, .. } =>
    match kind, text.dropWhile (· ≠ '=') with
    | .notice n, [] => f.stop n
    | .flag, [] => do return (← f.addOption long (fun _ => true) "", none)
    | .value accepts, [] => .ok (f, some ⟨long, accepts⟩)
    | .value accepts, _ :: value => do
      return (← f.addOption long accepts (String.ofList value), none)
    | _, _ => f.stop .usage

/-- Reads an argument that is an option. -/
def readOption (g : Grammar) (f : Found) (argument : String) : Reading (Found × Option Waiting) :=
  match argument.toList.drop 1 with
  | '-' :: text => readLong g f text
  | letters => readLetters g f letters

/-- Reads arguments. -/
def readArguments (g : Grammar) (f : Found) : List String → Reading Found
  | [] => f.settle
  | argument :: rest =>
    if g.namesCommand && !isOption argument then .ok { f with words := argument :: rest }
    else do
      let f ← f.settle
      if argument = "--" then rest.foldlM (Found.addWord g) f
      else if isOption argument then
        match ← readOption g f argument with
        | (f, none) => readArguments g f rest
        | (f, some w) =>
          match rest with
          | [] => f.stop .usage
          | value :: later =>
            if isOption value then f.stop .usage
            else readArguments g { f with pending := some ⟨w.long, w.accepts, value⟩ } later
      else readArguments g (← f.addWord g argument) rest

/-! ### Commands -/

/-- The command of a name, for the options and words after it. -/
def Command.ofFound? (name : String) (f : Found) : Option Command :=
  match name, f.words with
  | "check", [pattern] => some (.check pattern)
  | "disasm", [pattern] => some (.disassemble pattern)
  | "compile", [pattern] =>
    let append := f.given "append"
    let output := f.value? "output"
    if append ∧ output = none then none
    else some (.compile pattern (f.value? "name") output append)
  | "scan", pattern :: path :: paths =>
    some (.scan pattern (path :: paths) (f.given "anchored") (f.number? "capture-slots"))
  | _, _ => none

/-- What the word for help comes to with the words after it. -/
def helpOn : List String → Notice
  | [] => .help
  | [name] => if name = "help" ∨ (Grammar.commands.lookup name).isSome then .help else .usage
  | _ => .usage

/-- What the name of a command and the arguments after it ask for; `main` is what was found in front
of them.  The depth given after the command counts before the one given in front of it. -/
def Request.ofCommand (main : Found) (name : String) (arguments : List String) : Request :=
  match Grammar.commands.lookup name with
  | none => .notice (if name = "help" then helpOn arguments else .usage)
  | some g =>
    match readArguments g {} arguments with
    | .error (n, _) => .notice n
    | .ok f =>
      match Command.ofFound? name f with
      | none => .notice .usage
      | some command => .run ((f.number? "max-depth").or (main.number? "max-depth")) command

/-- What a list of arguments asks for. -/
def Invocation.ofArguments (arguments : List String) : Invocation :=
  let path (f : Found) : Option String := f.value? "config"
  match readArguments .main {} arguments with
  | .error (n, f) => ⟨path f, .notice n⟩
  | .ok main =>
    match main.words, main.settle with
    | [], _ => ⟨path main, .notice .usage⟩
    | name :: rest, .error _ =>
      match Request.ofCommand main name rest with
      | .notice n => ⟨path main, .notice n⟩
      | .run _ _ => ⟨path main, .notice .usage⟩
    | name :: rest, .ok settled =>
      match Request.ofCommand settled name rest with
      | .notice n => ⟨path main, .notice n⟩
      | request => ⟨path settled, request⟩

end BoundedRegex.Cli
