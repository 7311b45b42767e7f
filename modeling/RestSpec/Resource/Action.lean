/-
The operations that can be done to a resource: what each says of itself, what it takes and what it
answers.
-/
import RestSpec.Document.Operation

namespace RestSpec

open Document

/-- What an operation is done to: a node by name, `keyword` and module, with the parameters of its
path. -/
structure Subject where
  name : String
  keyword : String
  moduleName : String
  description : Option String
  parameters : List Parameter

namespace Subject

/-- What the name of a body parameter ends in, after the name of the node. -/
def parameterSuffix : String := ".body-param"

/-- What all operations have in common; the subject's description follows a blank line. -/
def operation (s : Subject) (summary : String) : Operation :=
  { tags := [s.moduleName]
    description := some <| match s.description with
      | some d => summary ++ "\n\n" ++ d
      | none => summary
    parameters := s.parameters
    responses := Table.ofList [("400", { description := "Bad request" })] }

/-- The operation with one more parameter, `inBody`, that has the given schema. -/
def withBody (s : Subject) (schema : Schema) (op : Operation) : Operation :=
  let body := Parameter.inBody (s.name ++ parameterSuffix) schema
    (some (s.name ++ " to be added or updated"))
  { op with parameters := op.parameters ++ [body] }

/-- What an operation is for, in three words: the verb, the keyword of the node and its name. -/
def summary (s : Subject) (verb : String) : String := verb ++ " " ++ s.keyword ++ " " ++ s.name

/-- Reading: the answer `200` carries the schema. -/
def get (s : Subject) (schema : Schema) : Operation :=
  (s.operation (s.summary "returns")).withResponse "200"
    { description := s.name, schema := some schema }

/-- Creating or replacing: the body carries the schema, and the answers are `201` and `204`. -/
def put (s : Subject) (schema : Schema) : Operation :=
  ((s.withBody schema (s.operation (s.summary "creates or updates"))).withResponse "201"
    { description := "Object created" }).withResponse "204" { description := "Object modified" }

/-- Creating: the body carries the schema, and the answers are `201`, or `409` for what is there
already. -/
def post (s : Subject) (schema : Schema) : Operation :=
  ((s.withBody schema (s.operation (s.summary "creates"))).withResponse "201"
    { description := "Object created" }).withResponse "409"
    { description := "Object already exists" }

/-- Removing: the answer `204` carries nothing, and nothing is sent. -/
def delete (s : Subject) : Operation :=
  (s.operation (s.summary "removes")).withResponse "204" { description := "Object deleted" }

/-- Changing: the body carries the schema, and the answer is `204`. -/
def patch (s : Subject) (schema : Schema) : Operation :=
  (s.withBody schema (s.operation (s.summary "patches"))).withResponse "204"
    { description := "Object modified" }

/-- A remote call, with what goes in as its body and what comes out as its answer. -/
def call (s : Subject) (input output : Option Schema) : Operation :=
  let op := s.operation ("invokes rpc " ++ s.name)
  let op :=
    match input with
    | some schema =>
      { op with
        parameters := op.parameters ++
          [Parameter.inBody (s.name ++ parameterSuffix) schema (some (s.name ++ " input"))] }
    | none => op
  match output with
  | some schema =>
    op.withResponse "200" { description := "Correct response", schema := some schema }
  | none => op.withResponse "204" { description := "Rpc succeeded" }

end Subject

end RestSpec
