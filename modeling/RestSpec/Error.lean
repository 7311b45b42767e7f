/-
What can go wrong: in linking modules, in settings, and in compiling. Each error names its cause,
and `message` puts it into words.
-/
namespace RestSpec

/-- Why modules cannot be linked. A `location` is a place in the text of the modules. -/
inductive SchemaError where
  | duplicateModule (moduleName : String)
  | unknownGrouping (grouping location : String)
  | cyclicGrouping (chain : List String)
  | unknownPrefix (name location : String)
  | unresolvedAugmentTarget (moduleName target : String)
  deriving DecidableEq, Repr

/-- A `SchemaError` in words, for who wrote the modules. -/
def SchemaError.message : SchemaError → String
  | duplicateModule m => "module '" ++ m ++ "' is defined more than once"
  | unknownGrouping g location => "unknown grouping '" ++ g ++ "' used at " ++ location
  | cyclicGrouping chain => "cyclic grouping use: " ++ " -> ".intercalate chain
  | unknownPrefix p location => "unknown module prefix '" ++ p ++ "' at " ++ location
  | unresolvedAugmentTarget m target =>
    "augment target '" ++ target ++ "' declared in module '" ++ m ++ "' does not resolve"

/-- What is wrong with settings: a name that stands for nothing, or a selection that leaves
nothing. -/
inductive ConfigError where
  | emptySchema
  | noModulesSelected (requested : List String)
  | noElementsSelected
  | unknownDialect (name : String)
  | unknownStrategy (name : String)
  | unknownElement (name : String)
  | unknownPass (name : String)
  | unknownSecurity (name : String)
  deriving DecidableEq, Repr

/-- A `ConfigError` in words, with the names that would have been understood. -/
def ConfigError.message (e : ConfigError) : String :=
  "configuration error: " ++
    match e with
    | emptySchema => "schema set is empty"
    | noModulesSelected requested =>
      "no loaded module matches the selection [" ++ ", ".intercalate requested ++ "]"
    | noElementsSelected => "at least one of 'data' or 'rpc' must be generated"
    | unknownDialect d =>
      "unknown path dialect '" ++ d ++ "' (expected rfc8040, odl or segment)"
    | unknownStrategy s =>
      "unknown model strategy '" ++ s ++ "' (expected optimizing or unpacking)"
    | unknownElement e => "unknown element kind '" ++ e ++ "' (expected data or rpc)"
    | unknownPass p => "unknown post-processor '" ++ p ++ "'"
    | unknownSecurity s =>
      "unknown security scheme '" ++ s ++ "' (expected basic or api-key)"

/-- Why no document is generated from linked modules: settings that do not fit, or what linking
should have ruled out. -/
inductive CompileError where
  | config (cause : ConfigError)
  | cyclicGrouping (node : String)
  | danglingReference (reference location : String)
  deriving DecidableEq, Repr

/-- A `CompileError` in words; all but the first kind are called violations of an invariant. -/
def CompileError.message : CompileError → String
  | config cause => cause.message
  | cyclicGrouping node => "invariant violation: grouping " ++ node ++ " uses itself"
  | danglingReference reference location =>
    "invariant violation: reference '" ++ reference ++ "' in " ++ location ++ " has no definition"

end RestSpec
