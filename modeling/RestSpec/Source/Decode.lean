/-
Modules from JSON and YAML. Every object is read with its own members only: an unknown or repeated
member refuses the whole input, and null stands for a missing member where one may be missing.
Modules and what they declare at the top are read from the notation itself, in which any scalar may
be a text; statements, types and defaults are read from the data that it stands for, in which only
a string is a text.
-/
import RestSpec.Json.Decode
import RestSpec.Json.Parse
import RestSpec.Source.Basic
import RestSpec.Yaml.Read

namespace RestSpec.Source

open Json

/-! ## Data -/

/-- A type, in which types lie at most `depth` inside each other. -/
def decodeType? : Nat → Json → Option TypeRef
  | 0, _ => none
  | _ + 1, str name => some (.named name)
  | depth + 1, v => do
    let ms ← Json.form.record? ["name", "enum", "path", "pattern", "types"] v
    return .restricted (← ms.required? "name" asString?)
      (← ms.defaulted? "enum" Json.form.texts? [])
      (← Json.form.optional? ms "path" asString?)
      (← Json.form.optional? ms "pattern" asString?)
      (← ms.defaulted? "types" (Json.form.list? (decodeType? depth)) [])

/-- A reference to a type, in as many levels of union as the value has. -/
def decodeTypeRef? (v : Json) : Option TypeRef := decodeType? (v.depth + 1) v

/-- A value of any kind, with the members of its objects in order. -/
def anyValue? (v : Json) : Option Json := some v.sorted

/-! ## Statements -/

/-- A leaf or a leaf-list, by its members; `kind` says which. -/
def decodeLeaf? (kind : LeafInfo → Kind) (ms : Fields Json) : Option Statement := do
  if !ms.closed ["kind", "name", "type", "config", "mandatory", "default", "description",
      "reference"] then none
  let info : LeafInfo := {
    type := ← ms.required? "type" decodeTypeRef?
    mandatory := ← ms.defaulted? "mandatory" asBool? false
    default := ← Json.form.optional? ms "default" anyValue? }
  return {
    kind := kind info
    name := ← ms.required? "name" asString?
    config := ← Json.form.optional? ms "config" asBool?
    description := ← Json.form.optional? ms "description" asString?
    reference := ← Json.form.optional? ms "reference" asString?
    children := []
    uses := [] }

/-- A case of a choice; `inner` reads what is declared in it. -/
def decodeCase? (inner : Json → Option Statement) (v : Json) : Option Statement := do
  let ms ← Json.form.record? ["name", "description", "uses", "children"] v
  return {
    kind := .case
    name := ← ms.required? "name" asString?
    config := none
    description := ← Json.form.optional? ms "description" asString?
    reference := none
    children := ← ms.defaulted? "children" (Json.form.list? inner) []
    uses := ← ms.defaulted? "uses" Json.form.texts? [] }

/-- A container by its members, where `inner` reads its children; any text for `presence` makes it
one that is there by itself. -/
def decodeContainer? (inner : Json → Option Statement) (ms : Fields Json) : Option Statement := do
  if !ms.closed ["kind", "name", "config", "description", "reference", "presence", "uses",
      "children"] then none
  return {
    kind := .container (← Json.form.optional? ms "presence" asString?).isSome
    name := ← ms.required? "name" asString?
    config := ← Json.form.optional? ms "config" asBool?
    description := ← Json.form.optional? ms "description" asString?
    reference := ← Json.form.optional? ms "reference" asString?
    children := ← ms.defaulted? "children" (Json.form.list? inner) []
    uses := ← ms.defaulted? "uses" Json.form.texts? [] }

/-- A list by its members, where `inner` reads its children. -/
def decodeList? (inner : Json → Option Statement) (ms : Fields Json) : Option Statement := do
  if !ms.closed ["kind", "name", "key", "config", "description", "reference", "uses",
      "children"] then none
  return {
    kind := .list (← ms.defaulted? "key" Json.form.texts? [])
    name := ← ms.required? "name" asString?
    config := ← Json.form.optional? ms "config" asBool?
    description := ← Json.form.optional? ms "description" asString?
    reference := ← Json.form.optional? ms "reference" asString?
    children := ← ms.defaulted? "children" (Json.form.list? inner) []
    uses := ← ms.defaulted? "uses" Json.form.texts? [] }

/-- A choice by its members, where `inner` reads what is in its cases. -/
def decodeChoice? (inner : Json → Option Statement) (ms : Fields Json) : Option Statement := do
  if !ms.closed ["kind", "name", "config", "description", "cases"] then none
  return {
    kind := .choice
    name := ← ms.required? "name" asString?
    config := ← Json.form.optional? ms "config" asBool?
    description := ← Json.form.optional? ms "description" asString?
    reference := none
    children := ← ms.defaulted? "cases" (Json.form.list? (decodeCase? inner)) []
    uses := [] }

/-- The words for the kinds of statements. -/
def kindWords : List String := ["container", "list", "leaf", "leaf-list", "choice"]

/-- The word for the kind of a statement. Inside another statement a kind may also be given by its
place among the words. -/
def decodeKind? (inside : Bool) : Json → Option String
  | str word => some word
  | int n => if inside && 0 ≤ n then kindWords[n.toNat]? else none
  | _ => none

/-- A statement, in which statements lie at most `depth` inside each other; `inside` says that it
lies in one itself. -/
def decodeStatementWithin? (inside : Bool) : Nat → Json → Option Statement
  | 0, _ => none
  | depth + 1, v => do
    let inner := decodeStatementWithin? true depth
    let ms ← v.asMembers?
    match ← ms.required? "kind" (decodeKind? inside) with
    | "container" => decodeContainer? inner ms
    | "list" => decodeList? inner ms
    | "leaf" => decodeLeaf? .leaf ms
    | "leaf-list" => decodeLeaf? .leafList ms
    | "choice" => decodeChoice? inner ms
    | _ => none

/-- A statement, in as many levels as the value has. -/
def decodeStatement? (v : Json) : Option Statement :=
  decodeStatementWithin? false (v.depth + 1) v

/-! ## Modules -/

/-- A notation that files may be written in: what it says of its values, and the data that a value
stands for. -/
structure FileForm (β : Type) extends Form β where
  json? : β → Option Json

variable {β : Type} (form : FileForm β)

/-- A part that is read from its data. -/
def FileForm.data? {α : Type} (decode : Json → Option α) (v : β) : Option α :=
  (form.json? v).bind decode

/-- A named type, by its members. -/
def decodeTypedef? (v : β) : Option Typedef := do
  let ms ← form.record? ["name", "type", "description", "default"] v
  return {
    name := ← ms.required? "name" form.text?
    type := ← ms.required? "type" (form.data? decodeTypeRef?)
    description := ← form.optional? ms "description" form.text?
    default := ← form.optional? ms "default" (form.data? anyValue?) }

/-- The block that the members `children` and `uses` state. -/
def decodeBody? (ms : Fields β) : Option Body := do
  return {
    children := ← ms.defaulted? "children" (form.list? (form.data? decodeStatement?)) []
    uses := ← ms.defaulted? "uses" form.texts? [] }

/-- A grouping, by its members. -/
def decodeGrouping? (v : β) : Option Grouping := do
  let ms ← form.record? ["name", "description", "reference", "uses", "children"] v
  return {
    name := ← ms.required? "name" form.text?
    description := ← form.optional? ms "description" form.text?
    reference := ← form.optional? ms "reference" form.text?
    body := ← decodeBody? form ms }

/-- What goes into a remote call or comes out of it. -/
def decodeMessage? (v : β) : Option Body := do
  decodeBody? form (← form.record? ["uses", "children"] v)

/-- A remote call, by its members; `input` and `output` may be missing. -/
def decodeRpc? (v : β) : Option Rpc := do
  let ms ← form.record? ["name", "description", "reference", "input", "output"] v
  return {
    name := ← ms.required? "name" form.text?
    description := ← form.optional? ms "description" form.text?
    reference := ← form.optional? ms "reference" form.text?
    input := ← form.optional? ms "input" (decodeMessage? form)
    output := ← form.optional? ms "output" (decodeMessage? form) }

/-- An augment, by its members. -/
def decodeAugment? (v : β) : Option Augment := do
  let ms ← form.record? ["target", "description", "uses", "children"] v
  return {
    target := ← ms.required? "target" form.text?
    description := ← form.optional? ms "description" form.text?
    body := ← decodeBody? form ms }

/-- A module, by its members; only `name` must be there. -/
def decodeModule? (v : β) : Option Module := do
  let ms ← form.record? ["name", "prefix", "namespace", "revision", "description", "typedefs",
    "groupings", "data", "rpcs", "augments"] v
  return {
    name := ← ms.required? "name" form.text?
    modulePrefix := ← form.optional? ms "prefix" form.text?
    namespaceUri := ← form.optional? ms "namespace" form.text?
    revision := ← form.optional? ms "revision" form.text?
    description := ← form.optional? ms "description" form.text?
    typedefs := ← ms.defaulted? "typedefs" (form.list? (decodeTypedef? form)) []
    groupings := ← ms.defaulted? "groupings" (form.list? (decodeGrouping? form)) []
    data := ← ms.defaulted? "data" (form.list? (form.data? decodeStatement?)) []
    rpcs := ← ms.defaulted? "rpcs" (form.list? (decodeRpc? form)) []
    augments := ← ms.defaulted? "augments" (form.list? (decodeAugment? form)) [] }

/-- The modules of a file. -/
def decodeFile? (v : β) : Option (List Module) := do
  let ms ← form.record? ["modules"] v
  ms.defaulted? "modules" (form.list? (decodeModule? form)) []

/-- How a JSON text holds modules: as the values it is made of. -/
def jsonFile : FileForm Json := { Json.form with json? := some }

/-- How a YAML text holds modules: the data of leaves and types in them are read as JSON. -/
def yamlFile : FileForm Yaml.Node := { Yaml.form with json? := Yaml.Node.json? }

/-- The modules of a text in JSON. -/
def parseJson? (text : String) : Option (List Module) :=
  (Json.parse text).bind (decodeFile? jsonFile)

/-- The modules of a text in YAML. -/
def parseYaml? (text : String) : Option (List Module) :=
  (Yaml.parse? text).bind (decodeFile? yamlFile)

end RestSpec.Source
