/-
TOML values, and how tables grow: an entry is added once, and a table that has been stated as a
whole is not stated again. A table remembers how it came about, because that decides what may
still be added to it.
-/
import RestSpec.Form

namespace RestSpec.Toml

/-- How a table came about: on the way to one of its tables, under a header of its own, on the way
of a dotted key, or in one piece between braces. -/
inductive Origin where
  | implied
  | header
  | dotted
  | inline
  deriving DecidableEq, Repr

/-- Fractions, dates and times are kept as they are written. -/
inductive Value where
  | text (value : String)
  | truth (value : Bool)
  | whole (value : Int)
  | fraction (spelling : String)
  | date (spelling : String)
  | list (items : List Value)
  | table (origin : Origin) (entries : List (String × Value))
  | tables (items : List (List (String × Value)))
  deriving Inhabited

/-- A table as its members, in the order of the text. -/
abbrev Table := Fields Value

/-- The items of an array, or of an array of tables, each as a table of its own. -/
def Value.items? : Value → Option (List Value)
  | list items => some items
  | tables items => some (items.map (table .header))
  | _ => none

/-- What TOML says of its values; nothing is null, and what has no parts adds nothing to a name. -/
def form : Form Value where
  isNull _ := false
  isUnit
    | .list items => items.isEmpty
    | .table _ entries => entries.isEmpty
    | _ => false
  text?
    | .text s => some s
    | _ => none
  truth?
    | .truth b => some b
    | _ => none
  whole?
    | .whole n => some n
    | _ => none
  items? := Value.items?
  members?
    | .table _ entries => some entries
    | _ => none

namespace Table

/-- The table with the value of a name that is there. -/
def replace (t : Table) (name : String) (v : Value) : Table :=
  t.map fun entry => if entry.1 == name then (name, v) else entry

/-- Changes the table at the end of a path; tables that are not there yet come about as `origin`
says. A dotted key does not lead into a table with a header, and nothing leads into a table between
braces. -/
def change (origin : Origin) (f : Table → Option Table) : List String → Table → Option Table
  | [], t => f t
  | name :: path, t =>
    match List.lookup name t with
    | none => do
      let inner ← change origin f path []
      return t ++ [(name, .table origin inner)]
    | some (.table was inner) =>
      if was = .inline ∨ (origin = .dotted ∧ was = .header) then none
      else do
        let inner ← change origin f path inner
        return t.replace name (.table was inner)
    | some (.tables items) =>
      match items.reverse with
      | [] => none
      | last :: others => do
        let inner ← change origin f path last
        return t.replace name (.tables (others.reverse ++ [inner]))
    | some _ => none

/-- Adds a value under a dotted key. -/
def insert (path : List String) (v : Value) : Table → Option Table :=
  change .dotted (fun t =>
    match path.getLast? with
    | some name => if (List.lookup name t).isSome then none else some (t ++ [(name, v)])
    | none => none) path.dropLast

/-- Starts the table of a header. -/
def startTable (path : List String) : Table → Option Table :=
  change .implied (fun t =>
    match path.getLast? with
    | some name =>
      match List.lookup name t with
      | none => some (t ++ [(name, .table .header [])])
      | some (.table .implied inner) => some (t.replace name (.table .header inner))
      | some _ => none
    | none => none) path.dropLast

/-- Starts one more table of a list of tables. -/
def startItem (path : List String) : Table → Option Table :=
  change .implied (fun t =>
    match path.getLast? with
    | some name =>
      match List.lookup name t with
      | none => some (t ++ [(name, .tables [[]])])
      | some (.tables items) => some (t.replace name (.tables (items ++ [[]])))
      | some _ => none
    | none => none) path.dropLast

end Table

end RestSpec.Toml
