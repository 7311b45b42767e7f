/-
A document: paths with their operations, and the definitions that the operations refer to. The
references of the operations are the roots; `dangling?` finds the first reference, in the order of
definitions and then operations, that has no definition.
-/
import RestSpec.Document.Operation

namespace RestSpec

namespace Document

/-- How clients prove who they are. -/
structure SecurityDefinition where
  type : String
  name : Option String := none
  location : Option String := none
  description : Option String := none

end Document

open Document in
/-- An API document: general information, the operations under their paths, and the definitions that
their payloads refer to. -/
structure Document where
  title : String := ""
  description : Option String := none
  version : String := ""
  host : Option String := none
  basePath : Option String := none
  consumes : List String := []
  produces : List String := []
  paths : Table PathItem := ∅
  definitions : Table Definition := ∅
  securityDefinitions : Table SecurityDefinition := ∅

namespace Document

/-- Puts an operation under its path and method, by `insert` in the place of the one that stood
there. -/
def addOperation (doc : Document) (path : String) (method : Method) (op : Operation) : Document :=
  { doc with paths := doc.paths.insert path (((doc.paths.find? path).getD {}).insert op method) }

/-- The operation at a path under a method, if both `find?` something. -/
def operation? (doc : Document) (path : String) (method : Method) : Option Operation :=
  (doc.paths.find? path).bind (·.find? method)

/-- All operations, by path and then by method. -/
def operations (doc : Document) : List (String × Method × Operation) :=
  doc.paths.entries.flatMap fun (path, item) => item.operations.map fun (m, op) => (path, m, op)

/-- Rewrites all operations of a document where they are. -/
def mapOperations (f : Operation → Operation) (doc : Document) : Document :=
  { doc with paths := doc.paths.mapValues (PathItem.map f) }

/-- The names that `operations` refer to, in order and with repetitions. -/
def pathReferences (doc : Document) : List String :=
  doc.operations.flatMap fun (_, _, op) => op.references

/-- New names for all that definitions and operations refer to, all at once; an empty `Renaming`
leaves the document as it is. -/
def rename (newNames : Renaming) (doc : Document) : Document :=
  if newNames.isEmpty then doc
  else
    mapOperations (Operation.rename newNames)
      { doc with definitions := doc.definitions.mapValues (Definition.rename newNames) }

/-- The document without the definitions of some names; references to them stay, so `dangling?` may
find one. -/
def without (names : List String) (doc : Document) : Document :=
  { doc with definitions := doc.definitions.filter fun name _ => !names.contains name }

/-- A reference that leads nowhere, with the place where it stands. -/
structure Dangling where
  reference : String
  location : String

/-- Every reference of the document with the place where it stands, those of definitions before
those of operations. -/
def locatedReferences (doc : Document) : List Dangling :=
  (doc.definitions.entries.flatMap fun (name, d) =>
    d.references.map fun (_, target) => ⟨target, name⟩) ++
  doc.operations.flatMap fun (path, method, op) =>
    op.references.map fun target => ⟨target, method.name ++ " " ++ path⟩

/-- The first of `locatedReferences` to a name without a definition, if there is one. -/
def dangling? (doc : Document) : Option Dangling :=
  doc.locatedReferences.find? fun r => !doc.definitions.contains r.reference

end Document

end RestSpec
