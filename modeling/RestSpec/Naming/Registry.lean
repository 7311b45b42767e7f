/-
Definition names for the nodes of a data model. A copy stands for what it was copied from, and a
node that is nothing but one `uses` stands for that grouping. Following both as far as they go leads
to the canonical node, which gives the name to all nodes that lead to it. It gets a name of its own
when it is first asked for, and keeps it: the package of its module and its class; if that is taken,
with the classes of more and more ancestors between them; and if all those are taken, with a number.
What has been found for a node, its canonical node or its name, is remembered.
-/
import RestSpec.DataModel.Basic
import RestSpec.Naming.Identifier

namespace RestSpec.DataModel

/-- A child that came in through a `uses` of the given node and still equals what it copies. -/
def isInheritedThrough (model : DataModel) (id child : NodeId) : Bool :=
  let c := model.node child
  c.introducedBy == some id && c.copiedFrom.isSome

/-- The grouping that a node adds nothing to: it `uses` one grouping, declares no child of its own,
and has not been augmented. -/
def aliasTarget? (model : DataModel) (id : NodeId) : Option NodeId :=
  let n := model.node id
  match n.uses with
  | [grouping] =>
    if n.kind.isStructural && n.augmentations.isEmpty &&
        n.children.all (model.isInheritedThrough id) then some grouping
    else none
  | _ => none

/-- The node that a node stands for directly: what it is `copiedFrom`, or else its
`aliasTarget?`. -/
def standsFor? (model : DataModel) (id : NodeId) : Option NodeId :=
  (model.node id).copiedFrom <|> model.aliasTarget? id

/-- The last of the nodes that a node stands for by `standsFor?`, itself if it stands for none. -/
def canonical (model : DataModel) (id : NodeId) : NodeId := chase model.standsFor? model.size id

end RestSpec.DataModel

namespace RestSpec.Naming

open DataModel

/-- The `canonicals` and the `names` that have been found so far, and the canonical nodes that own
the names. -/
structure Registry where
  canonicals : List (NodeId × NodeId) := []
  names : List (NodeId × String) := []
  owners : List (String × NodeId) := []

/-- The `className` of a node; what goes into an rpc or comes out of it is named for the rpc. -/
def nodeClass (model : DataModel) (id : NodeId) : String :=
  let n := model.node id
  match n.kind, n.parent with
  | .input, some call => className (model.node call).name ++ "Input"
  | .output, some call => className (model.node call).name ++ "Output"
  | _, _ => className n.name

/-- The `packageName` of a node's module, the `nodeClass` of the given ancestors in lower case, the
nearest last, and that of the node itself. -/
def extendedName (model : DataModel) (id : NodeId) (ancestors : List NodeId) : String :=
  let outer := ancestors.reverse.map fun a => (nodeClass model a).map Char.toLower
  ".".intercalate (packageName (model.node id).moduleName :: outer ++ [nodeClass model id])

/-- The names to try, the shortest first: `extendedName` with more and more ancestors. -/
def candidates (model : DataModel) (id : NodeId) : List String :=
  let ancestors := model.ancestors id
  (List.range (ancestors.length + 1)).map fun k => extendedName model id (ancestors.take k)

namespace Registry

/-- The canonical node that is reached by `standsFor?` in at most the given number of steps, all
that are passed being remembered. -/
def canonicalWithin (model : DataModel) : Nat → Registry → NodeId → Registry × NodeId
  | 0, r, id => (r, id)
  | steps + 1, r, id =>
    match r.canonicals.lookup id with
    | some owner => (r, owner)
    | none =>
      let (r, owner) :=
        match model.standsFor? id with
        | some next => canonicalWithin model steps r next
        | none => (r, id)
      ({ r with canonicals := (id, owner) :: r.canonicals }, owner)

/-- The canonical node of a node by `canonicalWithin`, with the registry that knows it from then
on. -/
def canonical (r : Registry) (model : DataModel) (id : NodeId) : Registry × NodeId :=
  canonicalWithin model (model.size + 1) r id

/-- The names that canonical nodes have been given. -/
def taken (r : Registry) : List String := r.owners.map (·.1)

/-- A name for a canonical node that is not `taken`: the first of the `candidates`, or the last of
them with a number. -/
def freshName (r : Registry) (model : DataModel) (id : NodeId) : String :=
  let tries := candidates model id
  match tries.find? fun n => !r.taken.contains n with
  | some n => n
  | none => unique r.taken (tries.getLast?.getD "")

/-- The name of a canonical node, a `freshName` when it is first asked for. -/
def resolveOwner (r : Registry) (model : DataModel) (owner : NodeId) : Registry × String :=
  match r.names.lookup owner with
  | some n => (r, n)
  | none =>
    let n := r.freshName model owner
    ({ r with names := (owner, n) :: r.names, owners := (n, owner) :: r.owners }, n)

/-- The name of a node, which is that of its `canonical` node, with the registry that knows it from
then on. -/
def resolve (r : Registry) (model : DataModel) (id : NodeId) : Registry × String :=
  match r.names.lookup id with
  | some n => (r, n)
  | none =>
    let (r, owner) := r.canonical model id
    let (r, n) := r.resolveOwner model owner
    ({ r with names := (id, n) :: r.names }, n)

end Registry

end RestSpec.Naming
