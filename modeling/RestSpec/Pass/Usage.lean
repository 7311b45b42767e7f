/-
The graph of definitions: which names each definition uses and inherits from, which names the
operations refer to, and which names are live, that is reached from an operation. A live name need
not be defined.
-/
import RestSpec.Document.Basic

namespace RestSpec

/-! ## Depth-first search -/

/-- A search: the names `met`, and those `finished`, each after all that it leads to. -/
structure Search where
  met : List String := []
  finished : List String := []

/-- Visits a name that has not been met, and what it leads to, at most `depth` steps deep. -/
def Search.visit (next : String → List String) : Nat → Search → String → Search
  | 0, search, _ => search
  | depth + 1, search, name =>
    if search.met.contains name then search
    else
      let after := (next name).foldl (visit next depth) { search with met := name :: search.met }
      { after with finished := after.finished ++ [name] }

/-! ## Usage -/

/-- The names in ascending order, each once, by `Table.ofList`. -/
def nameSet (names : List String) : List String :=
  (Table.ofList (names.map (·, ()))).names

namespace Document

/-- Where a definition leads. -/
structure Edges where
  uses : List String
  inherits : List String

/-- All names that a definition leads to, those of its properties before its parents. -/
def Edges.all (e : Edges) : List String := e.uses ++ e.inherits

/-- The names that a definition refers to, apart by what the reference is, each list as a
`nameSet`. -/
def Definition.edges (d : Definition) : Edges :=
  let reached (kind : EdgeKind) := nameSet ((d.references.filter (·.1 == kind)).map (·.2))
  ⟨reached .uses, reached .inherits⟩

/-- The names that a defined name leads to by its `edges`; a name that is not defined leads
nowhere. -/
def successors (doc : Document) (name : String) : List String :=
  match doc.definitions.find? name with
  | some d => d.edges.all
  | none => []

/-- The names that operations refer to, each once: the `nameSet` of `pathReferences`. -/
def roots (doc : Document) : List String := nameSet doc.pathReferences

/-- The depth that a search of the document never exceeds: each step but the last leaves a
definition that was not left before. -/
def searchDepth (doc : Document) : Nat := doc.definitions.entries.length + 1

/-- The names reached from the `roots` by `successors`, in a search that goes on to its end. -/
def live (doc : Document) : List String :=
  nameSet (doc.roots.foldl (Search.visit doc.successors doc.searchDepth) {}).met

/-- The definitions whose names are not `live`. -/
def unused (doc : Document) : List String :=
  let live := doc.live
  doc.definitions.names.filter fun name => !live.contains name

/-- The document without its `unused` definitions. -/
def removeUnused (doc : Document) : Document := doc.without doc.unused

end Document

end RestSpec
