/-
Carrying out a request. Files are looked up by name, and what is to be written is part of the
answer, so that a run is a function of the request and the files.
-/
import RestSpec.Command.Args
import RestSpec.DataModel.Summary
import RestSpec.Document.Encode
import RestSpec.Generate
import RestSpec.Settings.Toml
import RestSpec.Source.Decode
import RestSpec.Yaml.Print

namespace RestSpec.Command

/-- Why a `Request` comes to nothing: a file that cannot be read or understood, or an error of
linking, of the settings or of generation. -/
inductive Failure where
  | unreadableConfig (path : String)
  | malformedConfig (path : String)
  | unreadableSchema (path : String)
  | malformedSchema (path : String)
  | schema (cause : SchemaError)
  | config (cause : ConfigError)
  | compile (cause : CompileError)
  | unwritableOutput (path : String)

/-- What went wrong, the widest context first. -/
def Failure.message : Failure → String
  | unreadableConfig path => "Failed to read generator config: " ++ path
  | malformedConfig path => "Failed to parse generator config: " ++ path
  | unreadableSchema path => "failed to read schema file " ++ path
  | malformedSchema path => "failed to parse schema file " ++ path
  | schema cause => "failed to link schema modules: " ++ cause.message
  | config cause => cause.message
  | compile cause => cause.message
  | unwritableOutput path => "Failed to write output file: " ++ path

/-- What a run leaves: text on the standard output, or a file. -/
inductive Outcome where
  | printed (text : String)
  | written (path text : String)

/-- The content of a file, if it can be read. -/
abbrev Files := String → Option String

/-- The modules of a file; one that is not called JSON may leave out quotes. -/
def readSchema (files : Files) (path : String) : Except Failure (List Source.Module) :=
  match files path with
  | none => .error (.unreadableSchema path)
  | some text =>
    let modules :=
      if extension? path == some "json" then Source.parseJson? text
      else Source.parseYaml? text
    match modules with
    | some modules => .ok modules
    | none => .error (.malformedSchema path)

/-- The data model that all modules of the files make together. -/
def readModel (files : Files) (paths : List String) : Except Failure DataModel := do
  let modules ← paths.mapM (readSchema files)
  (DataModel.link modules.flatten).mapError .schema

/-- The settings of a request. -/
def readSettings (files : Files) (a : GenerateArgs) : Except Failure Settings :=
  match a.config with
  | none => .ok (a.settings {})
  | some path =>
    match files path with
    | none => .error (.unreadableConfig path)
    | some text =>
      match Settings.ofToml? text with
      | some s => .ok (a.settings s)
      | none => .error (.malformedConfig path)

/-- The text of a document in the `OutputFormat` that was asked for. -/
def render (format : OutputFormat) (doc : Document) : String :=
  match format with
  | .yaml => Yaml.print doc.encode
  | .json => Json.pretty doc.encode

/-- Carries out a request: `inspect` prints the `summary` of the modules, `generate` gives the
document of the selected ones, printed or for a file. -/
def run (files : Files) : Request → Except Failure Outcome
  | .inspect input => do
    return .printed (← readModel files input).summary
  | .generate a => do
    let s ← readSettings files a
    let model ← readModel files a.input
    let selected ← (selectedModules s model).mapError .config
    let doc ← (generateSelected s model selected).mapError .compile
    let text := render a.outputFormat doc
    match a.output with
    | some path => return .written path text
    | none => return .printed text

/-- The files that a request reads. -/
def Request.paths : Request → List String
  | .inspect input => input
  | .generate a => a.config.toList ++ a.input

end RestSpec.Command
