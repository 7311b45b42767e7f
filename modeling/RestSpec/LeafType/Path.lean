/-
Paths from leaf to leaf. A path goes up by `..` and down by local names, past choices and cases;
one that starts with a slash starts at a root of a module. Conditions in brackets are passed over.
-/
import RestSpec.DataModel.Link
import RestSpec.Text.Words

namespace RestSpec.DataModel

/-- The path without its conditions; a bracket that is never closed stays. -/
def dropConditions (inside : Bool) : List Char → List Char
  | [] => []
  | c :: cs =>
    if inside then dropConditions (c != ']') cs
    else if c == '[' && cs.contains ']' then dropConditions true cs
    else c :: dropConditions false cs

/-- The steps of a path: what stands between slashes, without blanks at the ends by `trim`, and
without steps that are empty or one dot. -/
def pathSegments (path : List Char) : List String :=
  let trimmed := (Text.words (· != '/') path).map Text.trim
  (trimmed.filter fun s => !s.isEmpty && s != ['.']).map String.ofList

/-- The module with the given prefix by `moduleOfPrefix?`, or else with the given name. -/
def moduleCalled? (model : DataModel) (name : String) : Option Module :=
  model.moduleOfPrefix? name <|> model.module? name

/-- One step down by `dataChildNamed?`, or for two dots up by `dataParent?`. -/
def pathStep (model : DataModel) (id : NodeId) (segment : String) : Option NodeId :=
  if segment = ".." then model.dataParent? id
  else model.dataChildNamed? id (((splitFirst ':' segment).map (·.2)).getD segment)

/-- The root that the first segment of an absolute path names: the first of that local name among
the `data` of its module. -/
def pathRoot? (model : DataModel) (home segment : String) : Option NodeId := do
  let (m, localName) ←
    match splitFirst ':' segment with
    | some (before, localName) => (model.moduleCalled? before).map (·, localName)
    | none => (model.module? home).map (·, segment)
  m.data.find? fun id => (model.node id).name == localName

/-- The node that a path leads to from a node, where names without a prefix belong to `home`. -/
def followPath? (model : DataModel) (path home : String) (start : NodeId) : Option NodeId :=
  let plain := dropConditions false path.toList
  match plain.head? == some '/', pathSegments plain with
  | true, [] => none
  | true, first :: rest => do rest.foldlM model.pathStep (← model.pathRoot? home first)
  | false, segments => segments.foldlM model.pathStep start

end RestSpec.DataModel
