/-
A document as JSON. Members stand in a fixed order, and what is not said is left out.
-/
import RestSpec.Document.Basic

namespace RestSpec.Document

open Json (str strings optional nonEmpty)

mutual

/-- A schema as JSON. Members that say nothing are left out, and extensions stand beside the
others. -/
def Schema.encode : Schema → Json
  | ⟨reference, type, format, description, enumeration, default, pattern, readOnly, items,
      properties, required, extensions⟩ =>
    .obj (optional "$ref" str reference ++
      optional "type" (fun t => str t.name) type ++
      optional "format" str format ++
      optional "description" str description ++
      nonEmpty "enum" strings enumeration ++
      optional "default" id default ++
      optional "pattern" str pattern ++
      optional "readOnly" Json.bool readOnly ++
      encodeItems items ++
      (match encodeProperties properties with
        | [] => []
        | encoded => [("properties", Json.obj encoded)]) ++
      nonEmpty "required" strings required ++
      extensions)

/-- The member `items`, for the schema of an array. -/
def Schema.encodeItems : Option Schema → List (String × Json)
  | none => []
  | some s => [("items", s.encode)]

/-- The members of `properties`, in their order. -/
def Schema.encodeProperties : List (String × Schema) → List (String × Json)
  | [] => []
  | (name, s) :: rest => (name, s.encode) :: encodeProperties rest

end

/-- A table as an object, in ascending order of its keys. -/
def encodeTable {α : Type} (encode : α → Json) (t : Table α) : Json :=
  .obj (t.mapValues encode).entries

/-- A composition lists its parents as references, and its own attributes after them. -/
def Definition.encode : Definition → Json
  | simple s => s.encode
  | composed c =>
    .obj (optional "description" str c.description ++
      [("allOf", .arr (c.parents.map (fun p => (Schema.referenceTo p).encode) ++
        (c.child.map Schema.encode).toList))])

/-- A parameter as JSON; `in` says whether it stands in the path or is the body. -/
def Parameter.encode (p : Parameter) : Json :=
  .obj ([("name", str p.name),
      ("in", str (match p.location with | .path => "path" | .body => "body")),
      ("required", .bool p.required)] ++
    optional "description" str p.description ++
    optional "type" (fun t => str t.name) p.type ++
    optional "format" str p.format ++
    nonEmpty "enum" strings p.enumeration ++
    optional "schema" Schema.encode p.schema)

/-- A response as JSON: its description, and the schema if it carries one. -/
def Response.encode (r : Response) : Json :=
  .obj (("description", str r.description) :: optional "schema" Schema.encode r.schema)

/-- An operation as JSON. Only `responses` is there even when it is empty. -/
def Operation.encode (op : Operation) : Json :=
  .obj (nonEmpty "tags" strings op.tags ++
    optional "description" str op.description ++
    optional "operationId" str op.operationId ++
    nonEmpty "consumes" strings op.consumes ++
    nonEmpty "produces" strings op.produces ++
    nonEmpty "parameters" (fun ps => Json.arr (ps.map Parameter.encode)) op.parameters ++
    [("responses", encodeTable Response.encode op.responses)] ++
    nonEmpty "security" (fun rs => Json.arr (rs.map (encodeTable strings))) op.security)

/-- The operations of a path, each under the name of its method in lower case. -/
def PathItem.encode (item : PathItem) : Json :=
  .obj (item.operations.map fun (m, op) => (m.name.map Char.toLower, op.encode))

/-- A security definition as JSON, with the header that holds a key. -/
def SecurityDefinition.encode (s : SecurityDefinition) : Json :=
  .obj (("type", str s.type) :: optional "name" str s.name ++ optional "in" str s.location ++
    optional "description" str s.description)

/-- The definitions of a document, or those of a builder, as one object. -/
def encodeDefinitions (definitions : Table Definition) : Json :=
  encodeTable Definition.encode definitions

end Document

open Document Json in
/-- A document as JSON: the members that the format demands, and of the others those that say
something. -/
def Document.encode (doc : Document) : Json :=
  .obj ([("swagger", str "2.0"),
      ("info", .obj ([("title", str doc.title)] ++ optional "description" str doc.description ++
        [("version", str doc.version)]))] ++
    optional "host" str doc.host ++
    optional "basePath" str doc.basePath ++
    nonEmpty "consumes" strings doc.consumes ++
    nonEmpty "produces" strings doc.produces ++
    [("paths", encodeTable PathItem.encode doc.paths),
      ("definitions", encodeDefinitions doc.definitions)] ++
    if doc.securityDefinitions.isEmpty then []
    else [("securityDefinitions", encodeTable SecurityDefinition.encode doc.securityDefinitions)])

end RestSpec
