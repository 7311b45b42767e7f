/-
Linked data models: numbered nodes, each with its parent and its children, and the modules with
their roots. A node's number is its place in the table; a number that is not taken stands for a
blank node without parent or children. Going up gives `ancestors`, going down `tree`, and
`dataChildren` are the children as data shows them, with choices and cases looked through.
-/
import RestSpec.Source.Basic
import RestSpec.Table

namespace RestSpec

open Source (LeafInfo Typedef)

/-- The number of a node. -/
abbrev NodeId := Nat

/-- Follows links from node to node, as far as `next` tells one, at most the given number of
steps. -/
def chase (next : NodeId → Option NodeId) : Nat → NodeId → NodeId
  | 0, id => id
  | steps + 1, id =>
    match next id with
    | some following => chase next steps following
    | none => id

namespace DataModel

/-- What a node is, with what only nodes of this kind have: the keys of a list, the `LeafInfo` of a
leaf, the target of an augment. -/
inductive Kind where
  | container (presence : Bool)
  | list (keys : List String)
  | leaf (info : LeafInfo)
  | leafList (info : LeafInfo)
  | choice
  | case
  | grouping
  | rpc
  | input
  | output
  | augment (target : NodeId)
  deriving Inhabited

namespace Kind

/-- Nodes that are made of other nodes and have a definition; `isAugmentable` adds cases to them. -/
def isStructural : Kind → Bool
  | container _ | list _ | grouping | input | output => true
  | _ => false

/-- Choices and cases, which data does not show; `dataChildren` looks through them. -/
def isTransparent : Kind → Bool
  | choice | case => true
  | _ => false

/-- Containers and lists, which have a path of their own to read and write them at; what has none is
reached through one of them. -/
def isResource : Kind → Bool
  | container _ | list _ => true
  | _ => false

/-- Lists, the entries of which are told apart by their `keys`. -/
def isList : Kind → Bool
  | list _ => true
  | _ => false

/-- The type, the mandatory mark and the default of a leaf or a leaf-list. -/
def leafInfo? : Kind → Option LeafInfo
  | leaf info | leafList info => some info
  | _ => none

/-- The names of the leaves that are the keys of a list; other nodes have none. -/
def keys : Kind → List String
  | list keys => keys
  | _ => []

end Kind

/-- A node. A copy knows the node it was copied from as long as it still equals it, the grouping it
came from, and the node whose `uses` brought it in. Its number is given to it by the table. -/
structure Node where
  id : NodeId := 0
  kind : Kind
  moduleName : String
  name : String
  revision : Option String := none
  parent : Option NodeId := none
  config : Bool := true
  configStatement : Option Bool := none
  description : Option String := none
  reference : Option String := none
  children : List NodeId := []
  uses : List NodeId := []
  augmentations : List NodeId := []
  introducedBy : Option NodeId := none
  copiedFrom : Option NodeId := none
  viaGrouping : Option NodeId := none
  augmentedBy : Option String := none

/-- The node that stands for a number which is not taken: a `case` without a name, a parent or
children. -/
def Node.blank : Node := { kind := .case, moduleName := "", name := "" }

instance : Inhabited Node := ⟨Node.blank⟩

/-- A module with the roots of all that is declared at its top, each list in the order of the text;
`modulePrefix` is its name if it declares none. -/
structure Module where
  name : String
  modulePrefix : String
  namespaceUri : Option String := none
  revision : Option String := none
  description : Option String := none
  typedefs : Table Typedef := ∅
  groupings : List NodeId := []
  data : List NodeId := []
  rpcs : List NodeId := []
  augments : List NodeId := []

/-- A node with all that lies below it. -/
inductive Tree where
  | node (id : NodeId) (children : List Tree)

/-- The node at the top of a tree. -/
def Tree.id : Tree → NodeId
  | node id _ => id

/-- The trees right below the top of a tree. -/
def Tree.children : Tree → List Tree
  | node _ children => children

end DataModel

open DataModel in
/-- The nodes of all modules, each at the place of its number, and the modules in the order in which
they were given. -/
structure DataModel where
  nodes : Array Node := #[]
  modules : List Module := []

namespace DataModel

variable (model : DataModel)

/-- How many nodes there are; their numbers are the ones below it. -/
def size : Nat := model.nodes.size

/-- The node of a number, `Node.blank` if the number is not taken. -/
def node (id : NodeId) : Node := model.nodes.getD id Node.blank

/-- The first of the `modules` with the given name. -/
def module? (name : String) : Option Module := model.modules.find? (·.name == name)

/-- The first of the `modules` whose `modulePrefix` is the given one. -/
def moduleOfPrefix? (name : String) : Option Module :=
  model.modules.find? (·.modulePrefix == name)

/-! ## Up -/

/-- The first ancestors of a node by `parent`, at most as many as given. -/
def ancestorsWithin : Nat → NodeId → List NodeId
  | 0, _ => []
  | steps + 1, id =>
    match (model.node id).parent with
    | none => []
    | some p => p :: ancestorsWithin steps p

/-- The ancestors of a node, the parent first. No way up is longer than the table, so
`ancestorsWithin` its size finds all. -/
def ancestors (id : NodeId) : List NodeId := model.ancestorsWithin model.size id

/-- The nearest ancestor that data shows: the first that is not `isTransparent`. -/
def dataParent? (id : NodeId) : Option NodeId :=
  (model.ancestors id).find? fun a => !(model.node a).kind.isTransparent

/-! ## Down -/

/-- A node with what lies at most the given number of levels below it, by `children`. -/
def treeWithin : Nat → NodeId → Tree
  | 0, id => .node id []
  | levels + 1, id => .node id ((model.node id).children.map (treeWithin levels))

/-- A node with all below it. No way down is longer than the table, so `treeWithin` its size is the
whole tree. -/
def tree (id : NodeId) : Tree := model.treeWithin model.size id

/-- The first of the `children` of the given local name, whatever module it comes from; choices and
cases count here, as they do not for `dataChildNamed?`. -/
def childNamed? (id : NodeId) (name : String) : Option NodeId :=
  (model.node id).children.find? fun c => (model.node c).name == name

mutual

/-- The node itself, or in the place of one that `isTransparent` what lies in it. -/
def shown : Tree → List NodeId
  | .node id children => if (model.node id).kind.isTransparent then shownAmong children else [id]

/-- What `shown` gives for each of some trees, one after the other. -/
def shownAmong : List Tree → List NodeId
  | [] => []
  | t :: ts => shown t ++ shownAmong ts

end

/-- The children of a node as data shows them, in order: those of `shownAmong` its children. -/
def dataChildren (id : NodeId) : List NodeId := model.shownAmong (model.tree id).children

/-- The first of the `dataChildren` of the given local name, whatever module it comes from. -/
def dataChildNamed? (id : NodeId) (name : String) : Option NodeId :=
  (model.dataChildren id).find? fun c => (model.node c).name == name

end DataModel

end RestSpec
