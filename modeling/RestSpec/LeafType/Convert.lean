/-
Schemas of leaf values. A built-in type has a fixed schema, a named type stands for the type it is
defined as, and a reference to another leaf takes that leaf's schema and records its path. Types
are followed a limited number of times; a type that is not known, or not reached by then, is text.
-/
import RestSpec.Document.Schema
import RestSpec.LeafType.Path

namespace RestSpec.DataModel

open Document
open Source (TypeRef)

/-! ## Built-in types -/

/-- Built-in types with their value types and formats. -/
def builtInTypes : List (String × ValueType × Option String) :=
  [("int8", .integer, some "int32"),
   ("int16", .integer, some "int32"),
   ("int32", .integer, some "int32"),
   ("uint8", .integer, some "int32"),
   ("uint16", .integer, some "int32"),
   ("uint32", .integer, some "int64"),
   ("int64", .integer, some "int64"),
   ("uint64", .integer, some "int64"),
   ("decimal64", .number, some "double"),
   ("boolean", .boolean, none),
   ("empty", .boolean, none),
   ("binary", .string, some "byte"),
   ("string", .string, none),
   ("bits", .string, none),
   ("identityref", .string, none),
   ("instance-identifier", .string, none),
   ("union", .string, none),
   ("enumeration", .string, none)]

/-- The schema of a type in `builtInTypes`: its type and its format. -/
def builtIn? (name : String) : Option Schema :=
  (builtInTypes.lookup name).map fun (type, format) => { type := some type, format := format }

/-- The schema of any text, for types of which no more is known. -/
def textSchema : Schema := Schema.ofType .string

/-! ## Where names are looked up -/

/-- The node at the end of the copies that a node is one of, by `copiedFrom`. -/
def origin (model : DataModel) (id : NodeId) : NodeId :=
  chase (fun a => (model.node a).copiedFrom) model.size id

/-- The node lies in a `grouping`, where the roots of absolute paths need not be those of its
uses. -/
def isInGrouping (model : DataModel) (id : NodeId) : Bool :=
  (model.ancestors id).any fun a =>
    match (model.node a).kind with
    | .grouping => true
    | _ => false

/-- The definition of a named type, with the module it stands in: `moduleCalled?` by its prefix, or
`home` without one. -/
def typedef? (model : DataModel) (name home : String) : Option (Source.Typedef × String) := do
  let (m, localName) ←
    match splitFirst ':' name with
    | some (before, localName) => (model.moduleCalled? before).map (·, localName)
    | none => (model.module? home).map (·, name)
  return (← m.typedefs.find? localName, m.name)

/-! ## References to leaves -/

/-- The member that records the path of a reference. -/
def pathExtension : String := "x-path"

/-- A node that a reference from `scope` may lead to: another leaf. -/
def isLeafOtherThan (model : DataModel) (scope id : NodeId) : Bool :=
  id != scope && (model.node id).kind.leafInfo?.isSome

/-- The leaf that a reference leads to from a leaf of a grouping through one of its copies, the
first for which `followPath?` finds one. -/
def targetThroughCopy? (model : DataModel) (path home : String) (scope : NodeId) : Option NodeId :=
  if model.isInGrouping scope then
    let copies := model.nodes.toList.filter fun n =>
      n.id != scope && !model.isInGrouping n.id && model.origin n.id == scope
    copies.findSome? fun copy =>
      (model.followPath? path home copy.id).filter (model.isLeafOtherThan scope)
  else none

/-- The leaf that a reference leads to by `followPath?`, or else by `targetThroughCopy?`. -/
def leafTarget? (model : DataModel) (path home : String) (scope : NodeId) : Option NodeId :=
  (model.followPath? path home scope).filter (model.isLeafOtherThan scope) <|>
    model.targetThroughCopy? path home scope

/-! ## Types -/

/-- How many types may be followed one after the other, the first of them included. -/
def typeLimit : Nat := 33

/-- What a type says beyond its name. -/
def restrict (type : TypeRef) (s : Schema) : Schema :=
  match type with
  | .named _ => s
  | .restricted _ enumeration _ pattern _ =>
    { s with
      enumeration := if enumeration.isEmpty then s.enumeration else enumeration
      pattern := pattern <|> s.pattern }

/-- The path that a reference to a type gives, as those to other leaves do. -/
def pathOf? : TypeRef → Option String
  | .named _ => none
  | .restricted _ _ path _ _ => path

/-- The schema of a type, following at most `limit` types, for a leaf `scope` and with names that
belong to the module `home`. -/
def schemaOfType (model : DataModel) : Nat → TypeRef → String → NodeId → Schema
  | 0, _, _, _ => textSchema
  | limit + 1, type, home, scope =>
    let name := type.name
    restrict type <|
      if name = "leafref" then
        match pathOf? type with
        | none => textSchema
        | some path =>
          let pointed :=
            match model.leafTarget? path home scope with
            | some target =>
              match (model.node target).kind.leafInfo? with
              | some info =>
                let targetHome := (model.node (model.origin target)).moduleName
                { schemaOfType model limit info.type targetHome target with
                  description := none, default := none }
              | none => textSchema
            | none => textSchema
          pointed.withExtension pathExtension (.str path)
      else
        match builtIn? name with
        | some s => s
        | none =>
          match model.typedef? name home with
          | some (t, typeHome) =>
            let s := schemaOfType model limit t.type typeHome scope
            { s with
              description := s.description <|> t.description
              default := s.default <|> t.default }
          | none => textSchema

/-- The schema of the values of a leaf: its type followed up to `typeLimit`, with names of the
module of its `origin`. -/
def convertLeaf (model : DataModel) (id : NodeId) : Schema :=
  match (model.node id).kind.leafInfo? with
  | some info =>
    model.schemaOfType typeLimit info.type (model.node (model.origin id)).moduleName id
  | none => textSchema

/-- The schema of a leaf as a property: its own `default` and description go before those of its
type, and a leaf-list is an `arrayOf` values that carries the description. -/
def leafProperty (model : DataModel) (id : NodeId) : Schema :=
  let n := model.node id
  let s := model.convertLeaf id
  let s := { s with
    default := (n.kind.leafInfo?.bind (·.default)) <|> s.default
    description := n.description <|> s.description }
  match n.kind with
  | .leafList _ =>
    { Schema.arrayOf { s with description := none } with description := s.description }
  | _ => s

end RestSpec.DataModel
