/-
Operations on a resource, their parameters and their responses.
-/
import RestSpec.Document.Schema

namespace RestSpec.Document

/-- Methods in the order in which a path lists them. -/
inductive Method where
  | get
  | put
  | post
  | delete
  | patch
  deriving DecidableEq, Repr

/-- Every method, in the order in which the operations of a path are listed. -/
def Method.all : List Method := [.get, .put, .post, .delete, .patch]

/-- The name of a method in capitals. -/
def Method.name : Method → String
  | .get => "GET"
  | .put => "PUT"
  | .post => "POST"
  | .delete => "DELETE"
  | .patch => "PATCH"

/-- Where a parameter stands in a request. -/
inductive Location where
  | path
  | body
  deriving DecidableEq, Repr

/-- A parameter of an operation: a part of its path with a type, or the body with a `schema`. -/
structure Parameter where
  name : String
  location : Location
  required : Bool := true
  description : Option String := none
  type : Option ValueType := none
  format : Option String := none
  enumeration : List String := []
  schema : Option Schema := none

/-- A parameter in the path, of the type that the schema states. -/
def Parameter.inPath (name : String) (schema : Schema) : Parameter :=
  { name, location := .path, type := schema.type, format := schema.format,
    enumeration := schema.enumeration }

/-- The parameter that is the body of a request, with the schema of what is sent. -/
def Parameter.inBody (name : String) (schema : Schema) (description : Option String) : Parameter :=
  { name, location := .body, description, schema := some schema }

/-- What an operation answers with under one status, and the `schema` of what it sends back. -/
structure Response where
  description : String
  schema : Option Schema := none

/-- One operation of a path. Its responses stand under their status, and each of `security` is one
way to be let in. -/
structure Operation where
  tags : List String := []
  description : Option String := none
  operationId : Option String := none
  consumes : List String := []
  produces : List String := []
  parameters : List Parameter := []
  responses : Table Response := ∅
  security : List (Table (List String)) := []

namespace Operation

/-- The parameter that is the body of the request, if something is sent. -/
def bodyParameter (op : Operation) : Option Parameter :=
  op.parameters.find? (·.location == .body)

/-- The names of the parameters in the path, in their order; `braced` finds the same in the path
itself. -/
def pathParameterNames (op : Operation) : List String :=
  (op.parameters.filter (·.location == .path)).map (·.name)

/-- The operation with a response under a status, in the place of the one that was there. -/
def withResponse (op : Operation) (status : String) (response : Response) : Operation :=
  { op with responses := op.responses.insert status response }

/-- The schemas that travel with the operation: of its `parameters`, then of its `responses`. -/
def payloads (op : Operation) : List Schema :=
  op.parameters.filterMap (·.schema) ++ op.responses.values.filterMap (·.schema)

/-- Rewrites all `payloads` of an operation, in parameters and in responses. -/
def mapPayloads (f : Schema → Schema) (op : Operation) : Operation :=
  { op with
    parameters := op.parameters.map fun p => { p with schema := p.schema.map f }
    responses := op.responses.mapValues fun r => { r with schema := r.schema.map f } }

/-- The names that the `payloads` of an operation refer to, with repetitions. -/
def references (op : Operation) : List String :=
  op.payloads.flatMap (·.references)

/-- Gives new names to what the `payloads` of an operation refer to. -/
def rename (newNames : Renaming) (op : Operation) : Operation :=
  op.mapPayloads (Schema.rename newNames)

end Operation

/-- The operations of one path, by method. -/
structure PathItem where
  get : Option Operation := none
  put : Option Operation := none
  post : Option Operation := none
  delete : Option Operation := none
  patch : Option Operation := none

namespace PathItem

/-- The operation of a path under a method. -/
def find? (item : PathItem) : Method → Option Operation
  | .get => item.get
  | .put => item.put
  | .post => item.post
  | .delete => item.delete
  | .patch => item.patch

/-- Puts an operation under a method of a path, in the place of the one that was there. -/
def insert (item : PathItem) (op : Operation) : Method → PathItem
  | .get => { item with get := some op }
  | .put => { item with put := some op }
  | .post => { item with post := some op }
  | .delete => { item with delete := some op }
  | .patch => { item with patch := some op }

/-- The operations of a path with their methods, in the order of `Method.all`. -/
def operations (item : PathItem) : List (Method × Operation) :=
  Method.all.filterMap fun m => (item.find? m).map (m, ·)

/-- Rewrites the operations of a path where they are. -/
def map (f : Operation → Operation) (item : PathItem) : PathItem :=
  { get := item.get.map f, put := item.put.map f, post := item.post.map f,
    delete := item.delete.map f, patch := item.patch.map f }

theorem find?_insert (item : PathItem) (op : Operation) (m n : Method) :
    (item.insert op m).find? n = if m = n then some op else item.find? n := by
  cases m <;> cases n <;> rfl

theorem find?_map (f : Operation → Operation) (item : PathItem) (m : Method) :
    (item.map f).find? m = (item.find? m).map f := by
  cases m <;> rfl

end PathItem

end RestSpec.Document
