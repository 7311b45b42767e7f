/-
Passes on the parents of compositions. `singleParent` keeps the first parent and takes over the
attributes of the others, those of their ancestors included; attributes already there win.
`sortParents` puts parents in ascending order.
-/
import RestSpec.Pass.Usage

namespace RestSpec.Document

/-- The `parents` of a defined name; none if it is not defined. -/
def parentsOf (doc : Document) (name : String) : List String :=
  ((doc.definitions.find? name).map (·.parents)).getD []

/-- The names reached over parents from `names`, each after its own parents, leaving out `except`
and what is reached through it alone. -/
def ancestry (doc : Document) (except : String) (names : List String) : List String :=
  (names.foldl (Search.visit doc.parentsOf doc.searchDepth) { met := [except] }).finished

/-- The `own` schema of a defined name, with the attributes that its definition states itself. -/
def ownOf (doc : Document) (name : String) : Option Schema :=
  (doc.definitions.find? name).bind (·.own)

/-- The properties of definitions by `ownOf`, those of a later one before those of an earlier
one. -/
def collectProperties (doc : Document) (names : List String) : List (String × Schema) :=
  (names.filterMap doc.ownOf).foldl
    (fun table s => s.properties.foldl (fun table (k, v) => Entries.insert k v table) table) []

/-- The names that definitions require themselves, by `ownOf`, one definition after the other. -/
def collectRequired (doc : Document) (names : List String) : List String :=
  (names.filterMap doc.ownOf).flatMap (·.required)

/-- Adds properties and `required` names that the schema does not have yet. -/
def Schema.extend (s : Schema) (properties : List (String × Schema)) (required : List String) :
    Schema :=
  { s with
    properties := properties.foldl (fun table (k, v) =>
      if (Entries.find? k table).isSome then table else Entries.insert k v table) s.properties
    required := required.foldl (fun names n => if names.contains n then names else names ++ [n])
      s.required }

/-- The composition with its first parent alone, into which `collectProperties` of the `ancestry` of
the others has been taken. -/
def flattenParents (doc : Document) (name : String) (c : Composition) : Composition :=
  match c.parents with
  | first :: others =>
    let inherited := doc.ancestry name others
    let child := (c.child.getD (Schema.object [])).extend
      (doc.collectProperties inherited) (doc.collectRequired inherited)
    { c with parents := [first], child := some child }
  | [] => c

/-- Applies `flattenParents` to a definition that has more than one parent. -/
def flattenAt (doc : Document) (name : String) : Document :=
  match doc.definitions.find? name with
  | some (.composed c) =>
    if c.parents.length > 1 then
      { doc with
        definitions := doc.definitions.insert name (.composed (doc.flattenParents name c)) }
    else doc
  | _ => doc

/-- Calls `flattenAt` for one name after the other; each sees the definitions before it as they are
then. -/
def singleParent (doc : Document) : Document :=
  doc.definitions.names.foldl flattenAt doc

/-- Names in ascending order, each as often as before. -/
def sortNames (names : List String) : List String :=
  names.mergeSort fun a b => decide (a ≤ b)

/-- Puts the parents of each composition in ascending order, as `sortNames` does. -/
def sortParents (doc : Document) : Document :=
  { doc with
    definitions := doc.definitions.mapValues fun
      | .composed c => .composed { c with parents := sortNames c.parents }
      | d => d }

end RestSpec.Document
