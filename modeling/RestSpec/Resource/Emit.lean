/-
Emitting operations. Each data node can be read; one that is configuration can also be written, as
far as the settings ask for it, and a list takes new entries at the path of the list. A remote call
can be invoked. Every operation that is emitted gets an id that no other has; the document holds
the last one that was emitted for each path and method.
-/
import RestSpec.Definitions.Build
import RestSpec.Resource.Action
import RestSpec.Resource.Path

namespace RestSpec

open Document DataModel

/-- An operation on its way into the document. -/
structure Emission where
  path : String
  method : Method
  operation : Operation

/-- What has been emitted, in order, and the definitions that it needs. -/
structure Progress where
  definitions : Definitions := {}
  emitted : List Emission := []

namespace Progress

/-- The operation ids that have been `emitted`, in their order. -/
def operationIds (p : Progress) : List String := p.emitted.filterMap (·.operation.operationId)

/-- Emits an operation under an `operationId` made from its method and names, which `Naming.unique`
numbers if it has been given before. -/
def emit (p : Progress) (path : String) (method : Method) (names : List String)
    (op : Operation) : Progress :=
  let id := Naming.unique p.operationIds (Naming.operationId method.name names)
  { p with emitted := p.emitted ++ [⟨path, method, { op with operationId := some id }⟩] }

/-- The document with all that has been `emitted`, one after the other, and with the definitions. -/
def document (p : Progress) (start : Document) : Document :=
  let doc := p.emitted.foldl (fun doc e => doc.addOperation e.path e.method e.operation) start
  { doc with definitions := p.definitions.table }

end Progress

/-- Parameters `inPath`, each of the type of its key, or a text if there is no such key. -/
def pathParameters (model : DataModel) (ps : List KeyParameter) : List Parameter :=
  ps.map fun p =>
    Parameter.inPath p.name ((p.key.map model.convertLeaf).getD textSchema)

namespace Settings

/-- The path at which the last node of a route is read and written: the `dataRoot`, and what
`Route.path` writes. -/
def dataPath (s : Settings) (route : Route) : String :=
  "/" ++ s.dialect.dataRoot ++ "/" ++ route.path s.dialect s.useModuleName

/-- The path at which entries are added to the list at the end of a route: the `dataRoot`, and what
`Route.listPath` writes. -/
def listPath (s : Settings) (route : Route) : String :=
  "/" ++ s.dialect.dataRoot ++ "/" ++ route.listPath s.dialect s.useModuleName

/-- The path at which an rpc is invoked, below `operationsRoot`; it has no parameters. -/
def callPath (s : Settings) (model : DataModel) (call : NodeId) : String :=
  let n := model.node call
  "/" ++ operationsRoot ++ "/" ++
    (Route.toName [] n.name n.moduleName).path s.dialect s.useModuleName

end Settings

/-- The `Subject` of operations on a node, with the given parameters in the path. -/
def subjectOf (model : DataModel) (id : NodeId) (parameters : List Parameter) : Subject :=
  let n := model.node id
  { name := n.name
    keyword := n.kind.keyword
    moduleName := n.moduleName
    description := n.description
    parameters := parameters }

/-- A list without keys is read as a whole. -/
def readSchema (kind : Kind) (schema : Schema) : Schema :=
  match kind with
  | .list [] => Schema.arrayOf schema
  | _ => schema

/-- The route leads to configuration and `fullCrud` is asked for. -/
def isWritable (s : Settings) (route : Route) : Bool :=
  s.fullCrud && (route.getLast?.map fun segment => !segment.readOnly).getD false

/-- The `Subject` of operations on the last node of a route, with all parameters of the route. -/
def subjectAt (model : DataModel) (route : Route) (id : NodeId) : Subject :=
  subjectOf model id (pathParameters model route.parameters)

/-- Emits the `get` operation of a data node at its `dataPath`. -/
def emitRead (s : Settings) (model : DataModel) (route : Route) (id : NodeId) (schema : Schema)
    (p : Progress) : Progress :=
  p.emit (s.dataPath route) .get (route.map (·.name))
    ((subjectAt model route id).get (readSchema (model.node id).kind schema))

/-- Emits the operations that write a data node at its `dataPath`: `put`, `post` and `delete`, and
`patch` if it is asked for. -/
def emitWrites (s : Settings) (model : DataModel) (route : Route) (id : NodeId) (schema : Schema)
    (p : Progress) : Progress :=
  let names := route.map (·.name)
  let path := s.dataPath route
  let subject := subjectAt model route id
  let p := p.emit path .put names (subject.put schema)
  let p := p.emit path .post names (subject.post schema)
  let p := p.emit path .delete names subject.delete
  if s.patch then p.emit path .patch names (subject.patch schema) else p

/-- Emits the `post` operation that adds an entry to a list at its `listPath`, which lacks the keys
of the list. -/
def emitEntry (s : Settings) (model : DataModel) (route : Route) (id : NodeId) (schema : Schema)
    (p : Progress) : Progress :=
  let subject := subjectOf model id (pathParameters model (Route.parameters route.dropLast))
  p.emit (s.listPath route) .post (route.map (·.name) ++ ["list"]) (subject.post schema)

/-- Emits the operations on a data node that a route leads to: `emitRead`, and if it `isWritable`
also `emitWrites` and for a list `emitEntry`. -/
def emitData (s : Settings) (model : DataModel) (route : Route) (id : NodeId) (p : Progress) :
    Except CompileError Progress := do
  let (definitions, schema) ← p.definitions.schemaFor s.strategy model id
  let p := emitRead s model route id schema { p with definitions := definitions }
  if !isWritable s route then return p
  let p := emitWrites s model route id schema p
  return if (model.node id).kind.isList then emitEntry s model route id schema p else p

/-- The schemas of what goes into a remote call and what comes out, in the order of children. -/
def messageSchemas (s : Settings) (model : DataModel) :
    List NodeId → Definitions → Option Schema → Option Schema →
      Except CompileError (Definitions × Option Schema × Option Schema)
  | [], defs, input, output => .ok (defs, input, output)
  | id :: rest, defs, input, output =>
    match (model.node id).kind with
    | .input => do
      let (defs, schema) ← defs.schemaFor s.strategy model id
      messageSchemas s model rest defs (some schema) output
    | .output => do
      let (defs, schema) ← defs.schemaFor s.strategy model id
      messageSchemas s model rest defs input (some schema)
    | _ => messageSchemas s model rest defs input output

/-- Emits the `post` operation of an rpc at its `callPath`, with what `messageSchemas` makes. -/
def emitCall (s : Settings) (model : DataModel) (call : NodeId) (p : Progress) :
    Except CompileError Progress := do
  let n := model.node call
  let (definitions, input, output) ← messageSchemas s model n.children p.definitions none none
  let p := { p with definitions := definitions }
  return p.emit (s.callPath model call) .post [n.name]
    ((subjectOf model call []).call input output)

end RestSpec
