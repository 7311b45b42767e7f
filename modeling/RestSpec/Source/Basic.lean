/-
Data-model modules as they are written: statements that declare nodes and lie inside each other,
groupings that are used by name, augments that add to a place elsewhere, and remote calls.
-/
import RestSpec.Json.Basic

namespace RestSpec.Source

/-- The type of a leaf: a name alone, or a name with what restricts it. -/
inductive TypeRef where
  | named (name : String)
  | restricted (name : String) (enumeration : List String) (path pattern : Option String)
      (members : List TypeRef)
  deriving Inhabited

/-- The name of the type, be there restrictions or not. -/
def TypeRef.name : TypeRef → String
  | named n => n
  | restricted n _ _ _ _ => n

/-- A named type: the type it is derived from, with a description and a default for its uses. -/
structure Typedef where
  name : String
  type : TypeRef
  description : Option String
  default : Option Json

/-- What a leaf or a leaf-list states: its type, whether it must be there, and its default. -/
structure LeafInfo where
  type : TypeRef
  mandatory : Bool
  default : Option Json

/-- What a statement declares, with what only statements of this kind have. -/
inductive Kind where
  | container (presence : Bool)
  | list (keys : List String)
  | leaf (info : LeafInfo)
  | leafList (info : LeafInfo)
  | choice
  | case

/-- A declared node: what it is, the nodes declared inside it, and the groupings it uses. -/
structure Statement where
  kind : Kind
  name : String
  config : Option Bool
  description : Option String
  reference : Option String
  children : List Statement
  uses : List String

/-- Nodes declared inside something, and the groupings used there. -/
structure Body where
  children : List Statement
  uses : List String

/-- A named block of statements that others use. -/
structure Grouping where
  name : String
  description : Option String
  reference : Option String
  body : Body

/-- A remote call, with what goes into it and what comes out of it, if anything. -/
structure Rpc where
  name : String
  description : Option String
  reference : Option String
  input : Option Body
  output : Option Body

/-- Statements that are added to the node that `target` leads to. -/
structure Augment where
  target : String
  description : Option String
  body : Body

/-- A module as it is written: what it declares at its top, each list in the order of the text. -/
structure Module where
  name : String
  modulePrefix : Option String
  namespaceUri : Option String
  revision : Option String
  description : Option String
  typedefs : List Typedef
  groupings : List Grouping
  data : List Statement
  rpcs : List Rpc
  augments : List Augment

end RestSpec.Source
