/-
Building definitions by a strategy. Flat definitions have all attributes of a node in one object; a
container or a list inside it is referred to if its definition is there already, and is otherwise
stated in place. Shared definitions refer to those of the groupings that a node uses.
-/
import RestSpec.Definitions.Shared
import RestSpec.Settings.Basic

namespace RestSpec.Definitions

open Document DataModel

/-! ## Flat definitions -/

/-- The schema of a node: a reference to its definition if it is there, or else an object, in
which objects lie at most `depth` inside each other. -/
def flatSchemaWithin (model : DataModel) : Nat → List String → Nested Definitions
  | 0, _, _, id => .error (.cyclicGrouping (model.schemaPath id))
  | depth + 1, underWay, defs, id =>
    let (defs, name) := defs.resolve model id
    if defs.table.contains name then .ok (defs, Schema.referenceTo name)
    else if underWay.contains name then .error (.cyclicGrouping (model.schemaPath id))
    else do
      let (defs, a) ← collectAttributes model
        (flatSchemaWithin model depth (name :: underWay)) id (fun _ => true) defs
      return (defs, a.object (model.node id).description)

/-- Builds the definition of a node with all its attributes in place, if it is not there under the
name that `resolve` gives. -/
def buildFlat (model : DataModel) (defs : Definitions) (id : NodeId) :
    Except CompileError (Definitions × String) :=
  let (defs, name) := defs.resolve model id
  if defs.table.contains name then .ok (defs, name)
  else do
    let (defs, s) ← flatSchemaWithin model (depthLimit model) [] defs id
    return (defs.insert name (.simple s), name)

/-! ## Either way -/

/-- Builds the definition of a node as the `strategy` shapes it, if it is not there, and gives its
name. -/
def build (strategy : Strategy) (model : DataModel) (defs : Definitions) (id : NodeId) :
    Except CompileError (Definitions × String) :=
  match strategy with
  | .optimizing => buildShared model defs id
  | .unpacking => buildFlat model defs id

/-- The schema that an operation carries for a node: a `referenceTo` its definition, which `build`
makes. -/
def schemaFor (strategy : Strategy) (model : DataModel) (defs : Definitions) (id : NodeId) :
    Except CompileError (Definitions × Schema) := do
  let (defs, name) ← defs.build strategy model id
  return (defs, Schema.referenceTo name)

end RestSpec.Definitions
