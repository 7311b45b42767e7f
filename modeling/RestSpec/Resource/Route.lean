/-
Routes: the segments from a data root down to a node. A list brings a parameter for each of its
keys; no two parameters of a route have one name.
-/
import RestSpec.DataModel.Basic
import RestSpec.Naming.Identifier

namespace RestSpec

open DataModel

/-- A parameter for a key, with the leaf that is the key if there is one. -/
structure KeyParameter where
  name : String
  key : Option NodeId

/-- One step of a route: a node with its name and module, the list that it is if it is one, and the
`parameters` that its keys bring. -/
structure Segment where
  name : String
  moduleName : String
  readOnly : Bool := false
  list : Option NodeId := none
  parameters : List KeyParameter := []

/-- Segments from the root down. -/
abbrev Route := List Segment

namespace Route

/-- All parameters of a route, those of the first segment first. -/
def parameters (route : Route) : List KeyParameter := route.flatMap (·.parameters)

/-- The names of the `parameters` of a route. -/
def parameterNames (route : Route) : List String := (parameters route).map (·.name)

/-- The name of a parameter: the key, or the key after the module or after the segment, or that with
a number, whichever is not `taken` first. -/
def parameterName (taken : List String) (moduleName segment key : String) : String :=
  let tries := [key, moduleName ++ "-" ++ key, segment ++ "-" ++ key]
  match tries.find? fun n => !taken.contains n with
  | some n => n
  | none => Naming.firstFree taken (Naming.numbered (segment ++ "-" ++ key) "-")

/-- Parameters for keys by `parameterName`, each with its leaf by `dataChildNamed?`; none has a name
that is taken above or before. -/
def keyParameters (model : DataModel) (id : NodeId) :
    List String → List String → List KeyParameter
  | _, [] => []
  | taken, key :: keys =>
    let n := model.node id
    let name := parameterName taken n.moduleName n.name key
    ⟨name, model.dataChildNamed? id key⟩ :: keyParameters model id (name :: taken) keys

/-- The segment of a node below a route, with `keyParameters` for the keys of a list. -/
def segmentOf (model : DataModel) (above : Route) (id : NodeId) : Segment :=
  let n := model.node id
  { name := n.name
    moduleName := n.moduleName
    readOnly := !n.config
    list := if n.kind.isList then some id else none
    parameters := keyParameters model id (parameterNames above) n.kind.keys }

/-- The route one node further down. -/
def toNode (model : DataModel) (above : Route) (id : NodeId) : Route :=
  above ++ [segmentOf model above id]

/-- The route one segment without parameters further down. -/
def toName (above : Route) (name moduleName : String) : Route :=
  above ++ [{ name := name, moduleName := moduleName }]

end Route

end RestSpec
