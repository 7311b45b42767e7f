/-
Passes on operations. `wrapPayloads` puts references and lists in a request or a response into an
object with one property; `requireSecurity` asks every operation without a requirement for one.
-/
import RestSpec.Document.Basic
import RestSpec.Text.Words

namespace RestSpec

/-! ## Wrapped payloads -/

/-- The root of the paths of remote calls. -/
def operationsRoot : String := "operations"

namespace Document

/-- The last segment of a path that is not a parameter, up to an equals sign: the name that
`wrapPayloads` uses. -/
def payloadKey (path : String) : String :=
  let segments := Text.words (· != '/') path.toList
  let last := segments.reverse.find? fun s => s.head? != some '\x7b'
  String.ofList ((last.getD []).takeWhile (· != '='))

/-- A reference or an array as the only property of an `object`. -/
def Schema.wrap (key : String) (s : Schema) : Schema :=
  if s.isReference || s.type == some .array then Schema.object [(key, s)] else s

/-- The operation with requests wrapped under one key and responses under another, by
`Schema.wrap`. -/
def Operation.wrap (request response : String) (op : Operation) : Operation :=
  { op with
    parameters := op.parameters.map fun p => { p with schema := p.schema.map (Schema.wrap request) }
    responses := op.responses.mapValues fun r =>
      { r with schema := r.schema.map (Schema.wrap response) } }

/-- The path leads to a remote call: it starts with `operationsRoot`. -/
def isCallPath (path : String) : Bool :=
  ("/" ++ operationsRoot ++ "/").toList.isPrefixOf path.toList

/-- The keys for requests and responses of a path: that of the message if it `isCallPath`, else
`payloadKey`. -/
def payloadKeys (path : String) : String × String :=
  if isCallPath path then ("input", "output") else (payloadKey path, payloadKey path)

/-- Puts the payload of every operation into an object with one property, named by the `payloadKeys`
of its path. -/
def wrapPayloads (doc : Document) : Document :=
  { doc with
    paths := doc.paths.map fun path item =>
      item.map (Operation.wrap (payloadKeys path).1 (payloadKeys path).2) }

end Document

/-! ## Security -/

/-- What operations ask of a client: a password, or a key in a header. -/
inductive Security where
  | basic
  | apiKey (header : String)
  deriving DecidableEq, Repr

namespace Security

/-- The header that holds the key, unless another is asked for. -/
def defaultHeader : String := "X-API-Key"

/-- The name under which a document defines it. -/
def definitionName : Security → String
  | basic => "basicAuth"
  | apiKey _ => "apiKeyAuth"

/-- How a document describes the scheme. -/
def definition : Security → Document.SecurityDefinition
  | basic => { type := "basic" }
  | apiKey header => { type := "apiKey", name := some header, location := some "header" }

end Security

namespace Document

/-- Asks for a scheme by its name, unless the operation asks for something already. -/
def Operation.secure (name : String) (op : Operation) : Operation :=
  if op.security.isEmpty then { op with security := [Table.ofList [(name, [])]] } else op

/-- Describes the scheme in the document and makes all operations `secure` by it. -/
def requireSecurity (security : Security) (doc : Document) : Document :=
  mapOperations (Operation.secure security.definitionName)
    { doc with
      securityDefinitions :=
        doc.securityDefinitions.insert security.definitionName security.definition }

end Document

end RestSpec
