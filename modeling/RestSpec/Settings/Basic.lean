/-
What a compilation can be told: what to generate, how to shape it, and which passes to run.
-/
import RestSpec.Pass.Pipeline
import RestSpec.Resource.Dialect

namespace RestSpec

/-- How definitions are shaped: groupings as shared parents, or all attributes in one place. -/
inductive Strategy where
  | optimizing
  | unpacking
  deriving DecidableEq, Repr

namespace Strategy

/-- Every `Strategy`, in the order in which names are looked for. -/
def all : List Strategy := [optimizing, unpacking]

/-- The name that a strategy is asked for by. -/
def name : Strategy → String
  | optimizing => "optimizing"
  | unpacking => "unpacking"

/-- The strategy of a name, in any case. -/
def ofName (s : String) : Except ConfigError Strategy :=
  match all.find? fun x => x.name == s.map Char.toLower with
  | some x => .ok x
  | none => .error (.unknownStrategy s)

end Strategy

/-- What paths are generated for: data nodes, remote calls. -/
inductive Element where
  | data
  | rpc
  deriving DecidableEq, Repr

namespace Element

/-- Every `Element`, in the order in which names are looked for. -/
def all : List Element := [data, rpc]

/-- The name that an element is asked for by. -/
def name : Element → String
  | data => "data"
  | rpc => "rpc"

/-- The element of a name, in any case. -/
def ofName (s : String) : Except ConfigError Element :=
  match s.map Char.toLower with
  | "data" => .ok data
  | "rpc" | "rpcs" => .ok rpc
  | _ => .error (.unknownElement s)

end Element

/-- The security of a name, in any case; a key then travels in the default header. -/
def Security.ofName (s : String) : Except ConfigError Security :=
  match s.map Char.toLower with
  | "basic" => .ok .basic
  | "api-key" | "apikey" => .ok (.apiKey Security.defaultHeader)
  | _ => .error (.unknownSecurity s)

/-- The media type of data in and out. -/
def defaultMediaType : String := "application/yang-data+json"

/-- What can be set for a generation, with the defaults. No `modules` means all of them, and no
`maxDepth` that there is no limit. -/
structure Settings where
  title : Option String := none
  version : String := "1.0.0-SNAPSHOT"
  host : Option String := none
  basePath : Option String := none
  consumes : List String := [defaultMediaType]
  produces : List String := [defaultMediaType]
  elements : List Element := [.data, .rpc]
  strategy : Strategy := .optimizing
  dialect : Dialect := .rfc8040
  useModuleName : Bool := false
  fullCrud : Bool := true
  patch : Bool := false
  maxDepth : Option Nat := none
  modules : List String := []
  postprocess : List Pass := Pass.defaultPasses
  security : Option Security := none

namespace Settings

/-- The settings ask for operations on the element. -/
def generates (s : Settings) (e : Element) : Bool := s.elements.contains e

/-- Something has to be generated. -/
def validate (s : Settings) : Except ConfigError Unit :=
  if s.elements.isEmpty then .error .noElementsSelected else .ok ()

/-- The passes to run: those of `postprocess`, and the `security` pass last if security is set and
the pass is not among them. -/
def passes (s : Settings) : List Pass :=
  if s.security.isSome && !s.postprocess.contains .security then s.postprocess ++ [.security]
  else s.postprocess

end Settings

end RestSpec
