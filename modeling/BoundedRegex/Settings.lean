import BoundedRegex.Toml.Reader

/-!
# Settings

What a user can set in a file: how patterns are compiled, how large the buffer for captures is, and
the name of exported arrays.  A setting that the file leaves out has its default; a key that is not
known, or a value of the wrong kind, makes the whole file invalid.
-/

namespace BoundedRegex

/-- The settings. -/
structure Settings where
  /-- How deep groups may be nested. -/
  maxNesting : Nat := 16
  /-- The size of the buffer for code. -/
  codeCapacity : Nat := 4096
  /-- The slots for captures. -/
  captureSlots : Nat := 64
  /-- The name of an exported array. -/
  exportName : String := "PATTERN"
deriving DecidableEq

/-- Why a settings file is not valid. -/
inductive SettingsError where
  /-- It cannot be read as text. -/
  | unreadable
  /-- It is no TOML document. -/
  | malformed
  /-- A table, or one of its keys, has no meaning. -/
  | unknownKey (key : String)
  /-- The value of a key is of the wrong kind. -/
  | wrongKind (key : String)
deriving DecidableEq

/-- The wording of an error. -/
def SettingsError.message : SettingsError → String
  | unreadable => "the file cannot be read"
  | malformed => "the file is not a valid TOML document"
  | unknownKey key => "unknown key: " ++ key
  | wrongKind key => "value of the wrong kind: " ++ key

namespace Settings

open Toml (Value)

/-- A way to set something from a value; `none` if the value is of the wrong kind. -/
abbrev Setter := Settings → Value → Option Settings

/-- Sets a count. -/
def count (f : Settings → Nat → Settings) : Setter
  | s, .integer n => if 0 ≤ n then some (f s n.toNat) else none
  | _, _ => none

/-- Sets a text. -/
def text (f : Settings → String → Settings) : Setter
  | s, .string t => some (f s t)
  | _, _ => none

/-- The tables of a settings file and their keys. -/
def tables : List (String × List (String × Setter)) :=
  [("compile",
      [("max_nesting_depth", count fun s n => { s with maxNesting := n }),
        ("code_capacity", count fun s n => { s with codeCapacity := n })]),
    ("scan", [("capture_slots", count fun s n => { s with captureSlots := n })]),
    ("export", [("name", text fun s t => { s with exportName := t })])]

/-- Sets a key by its setter. -/
def apply (s : Settings) (key : String) (set : Setter) (v : Value) : Except SettingsError Settings :=
  match set s v with
  | some s => .ok s
  | none => .error (.wrongKind key)

/-- Sets the keys of a table.  A table may also be given as an array, which must hold a value for
every key, in order; further values in it do not count. -/
def setTable (s : Settings) (table : String) (keys : List (String × Setter)) :
    Value → Except SettingsError Settings
  | .table entries =>
    entries.foldlM (fun s (key, v) =>
      match keys.lookup key with
      | some set => s.apply key set v
      | none => .error (.unknownKey key)) s
  | .array values =>
    if keys.length ≤ values.length then
      (keys.zip values).foldlM (fun s ((key, set), v) => s.apply key set v) s
    else .error (.wrongKind table)
  | _ => .error (.wrongKind table)

/-- The settings that a document makes. -/
def ofDocument (entries : List (String × Value)) : Except SettingsError Settings :=
  entries.foldlM (fun s (table, v) =>
    match tables.lookup table with
    | some keys => s.setTable table keys v
    | none => .error (.unknownKey table)) {}

/-- The settings in a file. -/
def ofBytes (bytes : List UInt8) : Except SettingsError Settings :=
  match String.fromUTF8? (ByteArray.mk bytes.toArray) with
  | none => .error .unreadable
  | some text =>
    match Toml.document? text with
    | none => .error .malformed
    | some entries => ofDocument entries

end Settings

end BoundedRegex
