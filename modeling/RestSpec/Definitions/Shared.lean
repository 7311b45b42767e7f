/-
Definitions that share structure. A node inherits from the groupings that it uses, which have
definitions of their own, and states only what it adds; containers and lists inside it are
referred to. A grouping whose copy an augment has changed is not inherited from: its attributes
are stated in full.
-/
import RestSpec.Definitions.Basic

namespace RestSpec

open Document DataModel

namespace DataModel

/-- The groupings used by a node of which a child that came in directly is no copy any more, since
`diverge` has run on it. -/
def divergedGroupings (model : DataModel) (id : NodeId) : List NodeId :=
  ((model.node id).children.filter fun c =>
    (model.node c).introducedBy == some id && (model.node c).copiedFrom.isNone).filterMap fun c =>
      (model.node c).viaGrouping

/-- The groupings that a node inherits from: its `uses` without `divergedGroupings`. -/
def inheritedGroupings (model : DataModel) (id : NodeId) : List NodeId :=
  (model.node id).uses.filter fun g => !(model.divergedGroupings id).contains g

/-- A child that none of the `inheritedGroupings` provides. -/
def isOwnChild (model : DataModel) (id child : NodeId) : Bool :=
  let c := model.node child
  !(c.introducedBy == some id && c.copiedFrom.isSome &&
    (c.viaGrouping.map fun g => !(model.divergedGroupings id).contains g).getD false)

end DataModel

namespace Definitions

/-- How a definition is built, or found if it is there. -/
abbrev Builder := Definitions → NodeId → Except CompileError (Definitions × String)

/-- Builds the definitions of groupings and lists their names, each once, in order. -/
def buildParents (build : Builder) :
    List NodeId → Definitions → List String → Except CompileError (Definitions × List String)
  | [], defs, parents => .ok (defs, parents)
  | g :: rest, defs, parents => do
    let (defs, name) ← build defs g
    buildParents build rest defs (if parents.contains name then parents else parents ++ [name])

/-- A schema for what a builder defines: the reference to it. -/
def referTo (build : Builder) : Nested Definitions := fun defs id => do
  let (defs, name) ← build defs id
  return (defs, Schema.referenceTo name)

/-- A simple definition if there are no `parents`, else a composition with the attributes as its
child. -/
def assemble (parents : List String) (own : Attributes) (description : Option String) :
    Definition :=
  match parents with
  | [] => .simple (own.object description)
  | parents => .composed ⟨parents, if own.isEmpty then none else some (own.object none), description⟩

/-- The definition of a node: `assemble` of its `inheritedGroupings` and of the members that it
states itself. -/
def sharedDefinition (model : DataModel) (build : Builder) (id : NodeId) (defs : Definitions) :
    Except CompileError (Definitions × Definition) := do
  let (defs, parents) ← buildParents build (model.inheritedGroupings id) defs []
  let (defs, own) ← collectAttributes model (referTo build) id (model.isOwnChild id) defs
  return (defs, assemble parents own (model.node id).description)

/-- Builds the definition of a node's canonical node, at most `depth` inside each other; those
named in `underWay` are being built around it. -/
def buildSharedWithin (model : DataModel) : Nat → List String → Builder
  | 0, _, _, id => .error (.cyclicGrouping (model.schemaPath (model.canonical id)))
  | depth + 1, underWay, defs, id =>
    let (defs, owner) := defs.canonical model id
    let (defs, name) := defs.resolve model id
    if defs.table.contains name then .ok (defs, name)
    else if underWay.contains name then .error (.cyclicGrouping (model.schemaPath owner))
    else do
      let (defs, d) ←
        sharedDefinition model (buildSharedWithin model depth (name :: underWay)) owner defs
      return (defs.insert name d, name)

/-- Builds the shared definition of a node, and before it those of the groupings that it inherits
from; `depthLimit` is never reached. -/
def buildShared (model : DataModel) : Builder := buildSharedWithin model (depthLimit model) []

end Definitions

end RestSpec
