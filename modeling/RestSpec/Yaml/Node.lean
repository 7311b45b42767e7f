/-
What a YAML text says: scalars, sequences and mappings. A scalar keeps its spelling, because the
same one is a text where a text is asked for, and a number or a truth value elsewhere.
-/
import RestSpec.Json.Decode
import RestSpec.Yaml.Plain

namespace RestSpec.Yaml

/-- A YAML value before its plain words are told apart: those may be texts, numbers or truth values,
by who reads them. -/
inductive Node where
  | plain (spelling : String)
  | quoted (text : String)
  | list (items : List Node)
  | map (entries : List (String × Node))
  deriving Inhabited

mutual

/-- The data that a node stands for. -/
def Node.json? : Node → Option Json
  | .plain spelling => plainValue? spelling
  | .quoted text => some (.str text)
  | .list items => (jsonItems? items).map .arr
  | .map entries => (jsonEntries? entries).map .obj

/-- The items of a list as JSON, if `json?` gives all of them. -/
def jsonItems? : List Node → Option (List Json)
  | [] => some []
  | v :: rest => do return (← v.json?) :: (← jsonItems? rest)

/-- The entries of a map as JSON, if `json?` gives all of their values. -/
def jsonEntries? : List (String × Node) → Option (Fields Json)
  | [] => some []
  | (name, v) :: rest => do return (name, ← v.json?) :: (← jsonEntries? rest)

end

/-- What YAML says of its values: any scalar may be a text. -/
def form : Form Node where
  isNull
    | .plain spelling => nullWords.contains spelling
    | _ => false
  isUnit
    | .plain spelling => nullWords.contains spelling
    | _ => false
  text?
    | .plain spelling => some spelling
    | .quoted text => some text
    | _ => none
  truth?
    | .plain spelling => (plainValue? spelling).bind Json.asBool?
    | _ => none
  whole?
    | .plain spelling => (plainValue? spelling).bind Json.asInt?
    | _ => none
  items?
    | .list items => some items
    | _ => none
  members?
    | .map entries => some entries
    | _ => none

end RestSpec.Yaml
