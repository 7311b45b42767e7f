/-
Reading TOML text: one line after the other adds an entry to the table that is open, or opens
another one.
-/
import RestSpec.Toml.Scalar
import RestSpec.Toml.Text

namespace RestSpec.Toml

open Text (Reader)

/-! ## Values -/

/-- Values up to the closing bracket, with commas between and perhaps one at the end. -/
def items (item : Reader Value) : Nat → Reader (List Value)
  | 0, _ => none
  | fuel + 1, cs =>
    match skipSpace cs with
    | ']' :: rest => some ([], rest)
    | cs => do
      let (v, rest) ← item cs
      match skipSpace rest with
      | ',' :: rest =>
        let (vs, rest) ← items item fuel rest
        return (v :: vs, rest)
      | ']' :: rest => return ([v], rest)
      | _ => none

/-- A key with dots, an equals sign and a value. -/
def entry (item : Reader Value) : Reader (List String × Value) := fun cs => do
  let (path, rest) ← keyPath (cs.length + 1) cs
  match skipBlank rest with
  | '=' :: rest =>
    let (v, rest) ← item (skipBlank rest)
    return ((path, v), rest)
  | _ => none

/-- Entries up to the closing brace, with commas between and perhaps one at the end. -/
def entries (item : Reader Value) : Nat → Table → Reader Table
  | 0, _, _ => none
  | fuel + 1, t, cs =>
    match skipSpace cs with
    | '\x7d' :: rest => some (t, rest)
    | cs => do
      let ((path, v), rest) ← entry item cs
      let t ← t.insert path v
      match skipSpace rest with
      | ',' :: rest => entries item fuel t rest
      | '\x7d' :: rest => return (t, rest)
      | _ => none

/-- Lists and tables may lie this deep inside each other. -/
def maxDepth : Nat := 80

/-- A value whose lists and tables lie at most `depth` inside each other. -/
def value : Nat → Reader Value
  | depth, '[' :: cs =>
    match depth with
    | 0 => none
    | depth + 1 => (items (value depth) (cs.length + 1) cs).map fun (vs, rest) => (.list vs, rest)
  | depth, '\x7b' :: cs =>
    match depth with
    | 0 => none
    | depth + 1 =>
      (entries (value depth) (cs.length + 1) [] cs).map fun (t, rest) => (.table .inline t, rest)
  | _, cs =>
    match text? cs with
    | some found => found.map fun (s, rest) => (.text s, rest)
    | none =>
      let run := scalarRun cs
      (scalar? run).map fun v => (v, cs.drop run.length)

/-! ## Lines -/

/-- All tables so far, and the path of the one that is open. -/
structure State where
  root : Table := []
  path : List String := []

/-- The path in a header, up to its closing brackets. -/
def header (closing : List Char) : Reader (List String) := fun cs => do
  let (path, rest) ← keyPath (cs.length + 1) (skipBlank cs)
  let rest := skipBlank rest
  if closing.isPrefixOf rest then some (path, rest.drop closing.length) else none

/-- Reads a header or an entry. -/
def State.line (s : State) : List Char → Option (State × List Char)
  | '[' :: '[' :: cs => do
    let (path, rest) ← header [']', ']'] cs
    return ({ root := ← s.root.startItem path, path }, rest)
  | '[' :: cs => do
    let (path, rest) ← header [']'] cs
    return ({ root := ← s.root.startTable path, path }, rest)
  | cs => do
    let ((path, v), rest) ← entry (value maxDepth) cs
    let root ← s.root.change .implied (Table.insert path v) s.path
    return ({ s with root }, rest)

/-- Reads line after line up to the end of the text; the fuel is more than the text has lines. -/
def State.lines : Nat → State → List Char → Option State
  | 0, _, _ => none
  | fuel + 1, s, cs =>
    match skipSpace cs with
    | [] => some s
    | '#' :: cs => if (cs.dropWhile isPrintable).isEmpty then some s else none
    | cs => do
      let (s, rest) ← s.line cs
      let rest ← lineEnd? rest
      State.lines fuel s rest

/-- The table that a text states. -/
def parse? (text : String) : Option Table :=
  let cs := match text.toList with
    | c :: cs => if c.toNat = 0xFEFF then cs else c :: cs
    | [] => []
  (State.lines (cs.length + 1) {} cs).map State.root

end RestSpec.Toml
