/-
The definitions of a data model, which are built when they are first asked for and kept under the
names of their canonical nodes.
-/
import RestSpec.Definitions.Attributes
import RestSpec.Naming.Registry

namespace RestSpec

open Document DataModel

/-- The definitions that have been built, with the `Registry` of the names that they go by. -/
structure Definitions where
  names : Naming.Registry := {}
  table : Table Definition := ∅

namespace Definitions

/-- The canonical node of a node, with definitions that know it from then on, by
`Registry.canonical`. -/
def canonical (defs : Definitions) (model : DataModel) (id : NodeId) : Definitions × NodeId :=
  let (names, owner) := defs.names.canonical model id
  ({ defs with names := names }, owner)

/-- The name of a node, with definitions that know it from then on, by `Registry.resolve`. -/
def resolve (defs : Definitions) (model : DataModel) (id : NodeId) : Definitions × String :=
  let (names, name) := defs.names.resolve model id
  ({ defs with names := names }, name)

/-- Puts a definition under a name, in the place of what was there. -/
def insert (defs : Definitions) (name : String) (d : Definition) : Definitions :=
  { defs with table := defs.table.insert name d }

/-- The definitions so far, and the state without them; names are kept. -/
def take (defs : Definitions) : Definitions × Table Definition :=
  ({ defs with table := ∅ }, defs.table)

/-- One definition is built inside another at most this deep: those under way have different
`canonical` nodes. -/
def depthLimit (model : DataModel) : Nat := model.size + 1

end Definitions

end RestSpec
