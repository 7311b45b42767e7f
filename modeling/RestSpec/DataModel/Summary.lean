/-
Texts about a data model: what a node is called and where it stands, as messages name it, and a short
text about all modules with their data roots, remote calls and augments.
-/
import RestSpec.DataModel.Basic

namespace RestSpec.DataModel

/-! ## Nodes -/

/-- The keyword that declares a node of this kind. -/
def Kind.keyword : Kind → String
  | .container _ => "container"
  | .list _ => "list"
  | .leaf _ => "leaf"
  | .leafList _ => "leaf-list"
  | .choice => "choice"
  | .case => "case"
  | .grouping => "grouping"
  | .rpc => "rpc"
  | .input => "input"
  | .output => "output"
  | .augment _ => "augment"

/-- The name of a node with that of its module before it, as in `net:address`. -/
def Node.qualifiedName (n : Node) : String := n.moduleName ++ ":" ++ n.name

/-- The names from the root to a node, with slashes between, after the node's module. -/
def schemaPath (model : DataModel) (id : NodeId) : String :=
  let names := ((id :: model.ancestors id).map fun a => (model.node a).name).reverse
  "/" ++ (model.node id).moduleName ++ ":" ++ "/".intercalate names

/-! ## Modules -/

/-- The line for a data root: its `Kind.keyword`, its name, and whether it can be written. -/
def rootLine (model : DataModel) (id : NodeId) : String :=
  let n := model.node id
  "  " ++ n.kind.keyword ++ " " ++ n.name ++ (if n.config then " [rw]\n" else " [ro]\n")

/-- The line for an augment, with the `schemaPath` of its target. -/
def augmentLine (model : DataModel) (id : NodeId) : String :=
  match (model.node id).kind with
  | .augment target => "  augment " ++ model.schemaPath target ++ "\n"
  | _ => ""

/-- A module with its prefix and revision, and a line for each of its data roots, remote calls and
augments. -/
def moduleSummary (model : DataModel) (m : Module) : String :=
  m.name ++ " (prefix " ++ m.modulePrefix ++ ")" ++
    ((m.revision.map (" revision " ++ ·)).getD "") ++ "\n" ++
    String.join (m.data.map model.rootLine) ++
    String.join (m.rpcs.map fun id => "  rpc " ++ (model.node id).name ++ "\n") ++
    String.join (m.augments.map model.augmentLine)

/-- The `moduleSummary` of all modules, in their order. -/
def summary (model : DataModel) : String :=
  String.join (model.modules.map model.moduleSummary)

end RestSpec.DataModel
