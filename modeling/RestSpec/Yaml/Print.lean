/-
Writing a JSON value as YAML in block style: two spaces for each level of mappings, sequences at
the level of their key, and a nested block that starts on the line of its dash.
-/
import RestSpec.Yaml.Scalar

namespace RestSpec.Yaml

/-- Keys longer than this many bytes stand on a line of their own after a question mark. -/
def longestSimpleKey : Nat := 128

/-- A key that fits in front of its value. -/
def isSimpleKey (name : String) : Bool :=
  name.utf8ByteSize ≤ longestSimpleKey && !name.toList.any isBreak

/-- A new line after a text, which may have ended its last line already. -/
def lineAfter (indent : Nat) (text : String) : String :=
  let margin := pad indent
  String.ofList (if endsInBreak text.toList then margin else '\n' :: margin)

/-- Entries below each other, the first where it stands. -/
def stacked (indent : Nat) : List String → String
  | [] => ""
  | [entry] => entry
  | entry :: rest => entry ++ lineAfter indent entry ++ stacked indent rest

/-- What stands between a key and its value, and how far the value is indented. -/
def lead (indent : Nat) : Json → String × Nat
  | .arr (_ :: _) => (lineAfter indent ":", indent)
  | .obj (_ :: _) => (lineAfter (indent + 2) ":", indent + 2)
  | _ => (" ", indent + 2)

mutual

/-- A value that starts in the current line; its further lines are indented as given. -/
def inLine (indent : Nat) : Json → String
  | .null => "null"
  | .bool b => if b then "true" else "false"
  | .int n => toString n
  | .decimal d => d.text
  | .str s => writeText indent s
  | .arr items => if items.isEmpty then "[]" else stacked indent (itemLines indent items)
  | .obj members =>
    if members.isEmpty then "\x7b\x7d" else stacked indent (entryLines indent members)

/-- The items of a list, each with a dash before it, at an indent. -/
def itemLines (indent : Nat) : List Json → List String
  | [] => []
  | v :: vs => ("- " ++ inLine (indent + 2) v) :: itemLines indent vs

/-- The entries of a map, each with its key before it, at an indent. -/
def entryLines (indent : Nat) : List (String × Json) → List String
  | [] => []
  | (name, v) :: ms =>
    let key := writeText (indent + 2) name
    let entry :=
      if isSimpleKey name then key ++ ":" ++ (lead indent v).1 ++ inLine (lead indent v).2 v
      else "? " ++ key ++ lineAfter indent key ++ ": " ++ inLine (indent + 2) v
    entry :: entryLines indent ms

end

/-- The value as a document that ends its last line. -/
def print (v : Json) : String :=
  let text := inLine 0 v
  text ++ lineAfter 0 text

end RestSpec.Yaml
