/-
Schemas of values in a document, and the definitions that name them. A schema refers to a
definition by the text of its reference; a composed definition also names its parents.
`references` lists what is referred to, and `rename` replaces it, in one and the same order.
-/
import RestSpec.Table
import RestSpec.Json.Basic

namespace RestSpec.Document

/-! ## References -/

/-- What stands before the name in a reference to a definition. -/
def definitionsPath : String := "#/definitions/"

/-- The text of a reference to the definition of a name; `referenceTarget` reads the name back. -/
def definitionReference (name : String) : String := definitionsPath ++ name

/-- The name after `definitionsPath` in a reference; a text in another form is a name itself. -/
def referenceTarget (reference : String) : String :=
  if definitionsPath.toList.isPrefixOf reference.toList then
    String.ofList (reference.toList.drop definitionsPath.length)
  else reference

/-- New names by old ones, for the names that change. -/
abbrev Renaming := Table String

/-- The new name that `find?` gives, or the old one if it does not change. -/
def Renaming.apply (newNames : Renaming) (name : String) : String :=
  (newNames.find? name).getD name

/-! ## Schemas -/

/-- The types of values that a schema can ask for. -/
inductive ValueType where
  | object
  | array
  | string
  | integer
  | number
  | boolean
  deriving DecidableEq, Repr

/-- The name of a type in a document. -/
def ValueType.name : ValueType → String
  | object => "object"
  | array => "array"
  | string => "string"
  | integer => "integer"
  | number => "number"
  | boolean => "boolean"

/-- What is said of a value. The entries of `properties` and `extensions` stand in the order of
their names. -/
structure Schema where
  reference : Option String := none
  type : Option ValueType := none
  format : Option String := none
  description : Option String := none
  enumeration : List String := []
  default : Option Json := none
  pattern : Option String := none
  readOnly : Option Bool := none
  items : Option Schema := none
  properties : List (String × Schema) := []
  required : List String := []
  extensions : List (String × Json) := []
  deriving Inhabited

namespace Schema

/-- The schema of all values of a type. -/
def ofType (type : ValueType) : Schema := { type := some type }

/-- The schema of the values of a type that have a format, such as `int32` among the integers. -/
def ofFormat (type : ValueType) (format : String) : Schema :=
  { type := some type, format := some format }

/-- The schema that refers to the definition of a name by `definitionReference`, and says nothing
else. -/
def referenceTo (name : String) : Schema := { reference := some (definitionReference name) }

/-- The schema of arrays with items of the given schema. -/
def arrayOf (items : Schema) : Schema := { type := some .array, items := some items }

/-- The schema of objects with the given properties, none of them required. -/
def object (properties : List (String × Schema)) : Schema :=
  { type := some .object, properties := properties }

/-- The schema refers to a definition, or to anything else. -/
def isReference (s : Schema) : Bool := s.reference.isSome

/-- The schema with an extension, in the place of one of the same name. -/
def withExtension (s : Schema) (name : String) (value : Json) : Schema :=
  { s with extensions := Entries.insert name value s.extensions }

mutual

/-- The names referred to: by the `reference` of the schema itself, by its `items`, by its
`properties`. -/
def references : Schema → List String
  | { reference := reference, items := items, properties := properties, .. } =>
    (reference.map referenceTarget).toList ++ itemReferences items ++ propertyReferences properties

/-- The `references` of the schema of an array's items. -/
def itemReferences : Option Schema → List String
  | none => []
  | some s => references s

/-- The `references` of the schemas of properties, in their order. -/
def propertyReferences : List (String × Schema) → List String
  | [] => []
  | (_, s) :: rest => references s ++ propertyReferences rest

end

/-- A reference with its new target; one whose `referenceTarget` keeps its name is left as it is
written. -/
def renameReference (newNames : Renaming) (reference : String) : String :=
  match newNames.find? (referenceTarget reference) with
  | some name => definitionReference name
  | none => reference

mutual

/-- The schema with new names for what it refers to, at every depth, by `renameReference`. -/
def rename (newNames : Renaming) : Schema → Schema
  | ⟨reference, type, format, description, enumeration, default, pattern, readOnly, items,
      properties, required, extensions⟩ =>
    ⟨reference.map (renameReference newNames), type, format, description, enumeration, default,
      pattern, readOnly, renameItems newNames items, renameProperties newNames properties,
      required, extensions⟩

/-- What `rename` makes of the schema of an array's items. -/
def renameItems (newNames : Renaming) : Option Schema → Option Schema
  | none => none
  | some s => some (rename newNames s)

/-- What `rename` makes of the schemas of properties, under the same names. -/
def renameProperties (newNames : Renaming) : List (String × Schema) → List (String × Schema)
  | [] => []
  | (name, s) :: rest => (name, rename newNames s) :: renameProperties newNames rest

end

end Schema

/-! ## Definitions -/

/-- Attributes taken over from parents, and attributes of its own in `child`. -/
structure Composition where
  parents : List String := []
  child : Option Schema := none
  description : Option String := none

/-- What a document defines under a name: a schema, or a composition of other definitions. -/
inductive Definition where
  | simple (schema : Schema)
  | composed (composition : Composition)
  deriving Inhabited

/-- A definition uses what its properties refer to, and inherits from its parents. -/
inductive EdgeKind where
  | uses
  | inherits
  deriving DecidableEq, Repr

/-- The names without later repetitions, as `eraseDups`. -/
def distinct (names : List String) : List String :=
  names.foldl (fun seen n => if seen.contains n then seen else seen ++ [n]) []

namespace Definition

/-- The description of a definition, of either kind. -/
def description : Definition → Option String
  | simple s => s.description
  | composed c => c.description

/-- The definitions that a composition inherits from, in their order; a simple definition has
none. -/
def parents : Definition → List String
  | simple _ => []
  | composed c => c.parents

/-- The definition is a composition, be it one of no parents. -/
def isComposed : Definition → Bool
  | simple _ => false
  | composed _ => true

/-- The schema that holds the attributes of the definition itself: all of a simple one, the `child`
of a composition. -/
def own : Definition → Option Schema
  | simple s => some s
  | composed c => c.child

/-- The names referred to, with the `EdgeKind` of each reference: `parents` first, then those of the
properties. -/
def references : Definition → List (EdgeKind × String)
  | simple s => s.references.map (EdgeKind.uses, ·)
  | composed c =>
    c.parents.map (EdgeKind.inherits, ·) ++
      (Schema.itemReferences c.child).map (EdgeKind.uses, ·)

/-- New names for all that is referred to; `parents` that become the same are kept once, by
`distinct`. -/
def rename (newNames : Renaming) : Definition → Definition
  | simple s => simple (s.rename newNames)
  | composed c =>
    composed { c with
      parents := distinct (c.parents.map newNames.apply)
      child := c.child.map (Schema.rename newNames) }

end Definition

end RestSpec.Document
