/-!
# Values of a TOML document

`Value` is what a document says.  While a document is read its tables are `Node`s, which remember
how each was made, as that decides what may still be added to it.
-/

namespace BoundedRegex.Toml

/-- A value. -/
inductive Value where
  | string (s : String)
  | integer (n : Int)
  | float (text : String)
  | boolean (b : Bool)
  | datetime (text : String)
  | array (items : List Value)
  | table (entries : List (String × Value))

/-- How a table came to be. -/
inductive TableOrigin where
  /-- By a header of its own. -/
  | header
  /-- By the header of a table inside it. -/
  | implied
  /-- By a dotted key. -/
  | dotted
deriving DecidableEq

/-- A value or a table that is being read. -/
inductive Node where
  | value (v : Value)
  | table (origin : TableOrigin) (entries : List (String × Node))
  /-- An array of tables, the last one first. -/
  | tables (items : List (List (String × Node)))

/-- The entries of a table that is being read. -/
abbrev Entries := List (String × Node)

mutual

/-- The value of a node. -/
def Node.toValue : Node → Value
  | .value v => v
  | .table _ entries => .table (entriesToValue entries)
  | .tables items => .array (tablesToValue items).reverse

/-- The values of entries. -/
def entriesToValue : List (String × Node) → List (String × Value)
  | [] => []
  | (key, node) :: rest => (key, node.toValue) :: entriesToValue rest

/-- The values of tables. -/
def tablesToValue : List (List (String × Node)) → List Value
  | [] => []
  | entries :: rest => .table (entriesToValue entries) :: tablesToValue rest

end

namespace Entries

/-- Replaces the node of a key by what `f` makes of it, or adds one at the end. -/
def alter (key : String) (f : Option Node → Option Node) : Entries → Option Entries
  | [] => (f none).map fun node => [(key, node)]
  | (k, node) :: rest =>
    if k = key then (f (some node)).map fun node => (k, node) :: rest
    else (alter key f rest).map ((k, node) :: ·)

/-- Changes the table at a path of headers; missing tables on the way are made, and an array of
tables stands for its last one. -/
def within (f : Entries → Option Entries) : List String → Entries → Option Entries
  | [], entries => f entries
  | key :: path, entries =>
    entries.alter key fun
      | none => (within f path []).map (.table .implied)
      | some (.table origin inner) => (within f path inner).map (.table origin)
      | some (.tables (last :: others)) =>
        (within f path last).map fun last => .tables (last :: others)
      | some _ => none

/-- Makes the table of a header; it may have been implied before, but not made. -/
def openTable (key : String) (entries : Entries) : Option Entries :=
  entries.alter key fun
    | none => some (.table .header [])
    | some (.table .implied inner) => some (.table .header inner)
    | some _ => none

/-- Adds a table to an array of tables. -/
def openTables (key : String) (entries : Entries) : Option Entries :=
  entries.alter key fun
    | none => some (.tables [[]])
    | some (.tables items) => some (.tables ([] :: items))
    | some _ => none

/-- Adds a value under a dotted key, which must be new.  The key may extend a table that a dotted key
has made.  It may also go through a table that a header has implied, or the last of an array of
tables, but not end there. -/
def add (v : Value) : List String → Entries → Option Entries
  | [], _ => none
  | [key], entries =>
    entries.alter key fun
      | none => some (.value v)
      | some _ => none
  | key :: path, entries =>
    entries.alter key fun
      | none => (add v path []).map (.table .dotted)
      | some (.table .dotted inner) => (add v path inner).map (.table .dotted)
      | some (.table .implied inner) =>
        if path.length = 1 then none else (add v path inner).map (.table .implied)
      | some (.tables (last :: others)) =>
        if path.length = 1 then none
        else (add v path last).map fun last => .tables (last :: others)
      | some _ => none

end Entries

end BoundedRegex.Toml
