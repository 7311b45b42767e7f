/-
Generating a document from a data model: the operations of every selected module, in the order of
its data roots and remote calls; the definitions that they need; and the passes that are asked for.
Choices and cases are looked through and do not count as levels.
-/
import RestSpec.Resource.Emit

namespace RestSpec

open Document DataModel

/-! ## Walking a module -/

mutual

/-- Emits a node and what lies below it, down to `maxDepth`: `emitData` for containers and lists,
nothing for choices and cases but what lies in them. -/
def emitTree (s : Settings) (model : DataModel) (above : Route) (level : Nat) :
    Tree → Progress → Except CompileError Progress
  | .node id children, p =>
    let kind := (model.node id).kind
    if kind.isTransparent then emitTrees s model above level children p
    else if kind.isResource then
      if (s.maxDepth.map fun limit => decide (limit ≤ level)).getD false then .ok p
      else do
        let route := above.toNode model id
        let p ← emitData s model route id p
        emitTrees s model route (level + 1) children p
    else .ok p

/-- Walks some trees one after the other, each as `emitTree` does. -/
def emitTrees (s : Settings) (model : DataModel) (above : Route) (level : Nat) :
    List Tree → Progress → Except CompileError Progress
  | [], p => .ok p
  | t :: ts, p => do
    let p ← emitTree s model above level t p
    emitTrees s model above level ts p

end

/-- Walks the `data` roots of a module with `emitTree`, if operations on data are asked for. -/
def emitRoots (s : Settings) (model : DataModel) (m : Module) (p : Progress) :
    Except CompileError Progress :=
  if s.generates .data then emitTrees s model [] 0 (m.data.map model.tree) p else .ok p

/-- Emits the `rpcs` of a module with `emitCall`, if they are asked for. -/
def emitCalls (s : Settings) (model : DataModel) (m : Module) (p : Progress) :
    Except CompileError Progress :=
  if s.generates .rpc then m.rpcs.foldlM (fun p call => emitCall s model call p) p else .ok p

/-- Emits a module: `emitRoots` first, then `emitCalls`. -/
def emitModule (s : Settings) (model : DataModel) (p : Progress) (m : Module) :
    Except CompileError Progress := do
  let p ← emitRoots s model m p
  emitCalls s model m p

/-! ## The document -/

/-- The modules that paths are generated for: those that the settings name, or all;
`noModulesSelected` if none of these is there. -/
def selectedModules (s : Settings) (model : DataModel) : Except ConfigError (List Module) := do
  if model.modules.isEmpty then throw .emptySchema
  s.validate
  let selected :=
    if s.modules.isEmpty then model.modules
    else model.modules.filter fun m => s.modules.contains m.name
  if selected.isEmpty then throw (.noModulesSelected s.modules)
  return selected

/-- What the document says of itself: the names and the descriptions of its modules, unless it has
a title of its own. -/
def heading (s : Settings) (selected : List Module) : Document :=
  let descriptions := selected.filterMap (·.description)
  { title := s.title.getD (",".intercalate (selected.map (·.name)))
    description := if descriptions.isEmpty then none else some ("\n".intercalate descriptions)
    version := s.version
    host := s.host
    basePath := s.basePath
    consumes := s.consumes
    produces := s.produces }

/-- The document before any pass: the `heading` with all that `emitModule` has emitted. -/
def rawDocument (s : Settings) (model : DataModel) (selected : List Module) :
    Except CompileError Document := do
  let p ← selected.foldlM (emitModule s model) {}
  return p.document (heading s selected)

/-- An error for a document in which `dangling?` finds a reference without a definition. -/
def Document.check (doc : Document) : Except CompileError Unit :=
  match doc.dangling? with
  | some d => .error (.danglingReference d.reference d.location)
  | none => .ok ()

/-- The document of selected modules: the `rawDocument` after `runAll` of the passes, if it stands
the `check`. -/
def generateSelected (s : Settings) (model : DataModel) (selected : List Module) :
    Except CompileError Document := do
  let raw ← rawDocument s model selected
  let doc := Pass.runAll s.security s.passes raw
  doc.check
  return doc

/-- The document of a data model for the modules that `selectedModules` finds. -/
def generate (s : Settings) (model : DataModel) : Except CompileError Document := do
  let selected ← (selectedModules s model).mapError CompileError.config
  generateSelected s model selected

end RestSpec
