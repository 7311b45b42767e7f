/-
The command line. Words are read one after the other: flags with what follows them, up to the next
flag. What is wrong is reported where the reader meets it; what is missing, at the end.
-/
import RestSpec.Settings.Toml

namespace RestSpec.Command

/-! ## Flags -/

/-- The flags that `generate` and `inspect` understand, each with a `long` name and some with a
`short?` one. -/
inductive Flag where
  | input
  | config
  | output
  | format
  | dialect
  | strategy
  | module
  | maxDepth
  | elements
  | postprocess
  | security
  | readOnly
  | patch
  | useModuleName
  | title
  | help
  deriving DecidableEq, Repr

namespace Flag

/-- Every `Flag`, in the order in which a name or a letter is looked for. -/
def all : List Flag :=
  [input, config, output, format, dialect, strategy, module, maxDepth, elements, postprocess,
   security, readOnly, patch, useModuleName, title, help]

/-- The name of a flag after two dashes, as in `--max-depth`. -/
def long : Flag → String
  | input => "input"
  | config => "config"
  | output => "output"
  | format => "format"
  | dialect => "dialect"
  | strategy => "strategy"
  | module => "module"
  | maxDepth => "max-depth"
  | elements => "elements"
  | postprocess => "postprocess"
  | security => "security"
  | readOnly => "read-only"
  | patch => "patch"
  | useModuleName => "use-module-name"
  | title => "title"
  | help => "help"

/-- The letter of a flag after one dash, as in `-i`; flags that are seldom given have none. -/
def short? : Flag → Option Char
  | input => some 'i'
  | config => some 'c'
  | output => some 'o'
  | format => some 'f'
  | dialect => some 'd'
  | strategy => some 's'
  | module => some 'm'
  | help => some 'h'
  | _ => none

/-- A flag that takes no value. -/
def isSwitch : Flag → Bool
  | readOnly | patch | useModuleName | help => true
  | _ => false

/-- A flag that takes all values up to the next flag. -/
def isOpen : Flag → Bool
  | input | elements | postprocess => true
  | _ => false

/-- A flag that may be given again. -/
def isRepeatable : Flag → Bool
  | input | elements | postprocess | module => true
  | _ => false

end Flag

/-- What can be wrong with the words of a command line, `help` and `version` included, which end
reading in the same way. -/
inductive UsageError where
  | missingRequired
  | unknownArgument
  | invalidCommand
  | helpInstead
  | help
  | version
  | invalidValue
  | refusedValue
  | repeated
  | tooManyValues
  deriving DecidableEq, Repr

/-! ## What is asked for -/

/-- The notations that a generated document is written in; `OutputFormat.ofPath` picks one by the
name of the file. -/
inductive OutputFormat where
  | yaml
  | json
  deriving DecidableEq, Repr

/-- The value of `--format` that asks for the notation. -/
def OutputFormat.name : OutputFormat → String
  | yaml => "yaml"
  | json => "json"

/-- The parts of a text between separators. -/
def splitOn (separator : Char) : List Char → List (List Char)
  | [] => [[]]
  | c :: cs =>
    if c == separator then [] :: splitOn separator cs
    else
      match splitOn separator cs with
      | [] => [[c]]
      | part :: parts => (c :: part) :: parts

/-- The name of the file that a path leads to. Slashes at the end and single dots lead nowhere, and
two dots lead to no file. -/
def fileName? (path : String) : Option (List Char) :=
  let names := (splitOn '/' path.toList).filter fun name => name ≠ [] && name ≠ ['.']
  names.getLast?.bind fun name => if name = ['.', '.'] then none else some name

/-- The part of a file's name after its last dot, if it has a dot beyond its first character. -/
def extension? (path : String) : Option String :=
  match fileName? path with
  | some (_ :: rest) =>
    if rest.contains '.' then some (String.ofList (rest.reverse.takeWhile (· != '.')).reverse)
    else none
  | _ => none

/-- The notation for a file of this name: JSON for the extension `json`, YAML for any other and for
standard output. -/
def OutputFormat.ofPath : Option String → OutputFormat
  | some path => if extension? path == some "json" then json else yaml
  | none => yaml

/-- What the words after `generate` ask for. Values that are `none` leave the settings of the
`config` file as they are. -/
structure GenerateArgs where
  input : List String := []
  config : Option String := none
  output : Option String := none
  format : Option OutputFormat := none
  dialect : Option Dialect := none
  strategy : Option Strategy := none
  modules : List String := []
  maxDepth : Option Nat := none
  elements : Option (List Element) := none
  postprocess : Option (List Pass) := none
  security : Option Security := none
  readOnly : Bool := false
  patch : Bool := false
  useModuleName : Bool := false
  title : Option String := none

/-- What a command line asks for: a document made from files, or the `summary` of their modules. -/
inductive Request where
  | generate (args : GenerateArgs)
  | inspect (input : List String)

/-- Settings from a file, with what the command line says in their place. -/
def GenerateArgs.settings (a : GenerateArgs) (file : Settings) : Settings :=
  { file with
    dialect := a.dialect.getD file.dialect
    strategy := a.strategy.getD file.strategy
    modules := if a.modules.isEmpty then file.modules else a.modules
    maxDepth := a.maxDepth <|> file.maxDepth
    elements := a.elements.getD file.elements
    postprocess := a.postprocess.getD file.postprocess
    security := a.security <|> file.security
    fullCrud := file.fullCrud && !a.readOnly
    patch := file.patch || a.patch
    useModuleName := file.useModuleName || a.useModuleName
    title := a.title <|> file.title }

/-- The format asked for, or the one that the name of the output suggests. -/
def GenerateArgs.outputFormat (a : GenerateArgs) : OutputFormat :=
  a.format.getD (OutputFormat.ofPath a.output)

/-! ## Values -/

/-- A whole number of at most sixty-four bits, perhaps after a plus. -/
def number? (s : String) : Option Nat :=
  let digits := match s.toList with
    | '+' :: cs => cs
    | cs => cs
  if digits.isEmpty || !digits.all Char.isDigit then none
  else
    let n := digits.foldl (fun n c => n * 10 + (c.toNat - '0'.toNat)) 0
    if n < Nat.pow 2 64 then some n else none

/-- The values of a flag that takes several, each of which may itself be a list with commas
between. -/
def commaValues (values : List String) : List String :=
  values.flatMap fun v => (splitOn ',' v.toList).map String.ofList

/-- The result of a reader of settings, with any error of its own as a `refusedValue`. -/
def accepted {ε α : Type} : Except ε α → Except UsageError α
  | .ok a => .ok a
  | .error _ => .error .refusedValue

/-- A path is not empty. -/
def pathOf (s : String) : Except UsageError String :=
  if s = "" then .error .invalidValue else .ok s

/-- What a flag with its values adds; a flag that takes one value has exactly one. -/
def GenerateArgs.take (a : GenerateArgs) (flag : Flag) (values : List String) :
    Except UsageError GenerateArgs := do
  let value := values.headD ""
  match flag with
  | .input => return { a with input := a.input ++ (← values.mapM pathOf) }
  | .config => return { a with config := some (← pathOf value) }
  | .output => return { a with output := some (← pathOf value) }
  | .format =>
    match value with
    | "yaml" => return { a with format := some .yaml }
    | "json" => return { a with format := some .json }
    | _ => throw .invalidValue
  | .dialect => return { a with dialect := some (← accepted (Dialect.ofName value)) }
  | .strategy => return { a with strategy := some (← accepted (Strategy.ofName value)) }
  | .module => return { a with modules := a.modules ++ [value] }
  | .maxDepth =>
    match number? value with
    | some n => return { a with maxDepth := some n }
    | none => throw .refusedValue
  | .elements =>
    let more ← (commaValues values).mapM fun v => accepted (Element.ofName v)
    return { a with elements := some (a.elements.getD [] ++ more) }
  | .postprocess =>
    let more ← (commaValues values).mapM fun v => accepted (Pass.ofName v)
    return { a with postprocess := some (a.postprocess.getD [] ++ more) }
  | .security => return { a with security := some (← accepted (Security.ofName value)) }
  | .readOnly => return { a with readOnly := true }
  | .patch => return { a with patch := true }
  | .useModuleName => return { a with useModuleName := true }
  | .title => return { a with title := some value }
  | .help => throw .help

/-! ## Reading -/

/-- What has been read: the values so far, the flags given, and a flag that still takes values. -/
structure Reading where
  args : GenerateArgs := {}
  given : List Flag := []
  pending : Option (Flag × List String) := none

namespace Reading

/-- A flag with all its values. -/
def settle (r : Reading) (flag : Flag) (values : List String) : Except UsageError Reading := do
  if values.isEmpty && !flag.isSwitch then throw .invalidValue
  if r.given.contains flag && !flag.isRepeatable then throw .repeated
  return { r with args := ← r.args.take flag values, given := flag :: r.given }

/-- No flag takes further values. -/
def close (r : Reading) : Except UsageError Reading :=
  match r.pending with
  | some (flag, values) => settle { r with pending := none } flag values
  | none => .ok r

/-- A flag without a value in the same word. -/
def start (r : Reading) (flag : Flag) : Except UsageError Reading := do
  let r ← r.close
  if flag.isSwitch then r.settle flag [] else return { r with pending := some (flag, []) }

/-- A flag with a value in the same word, which is then its only one. -/
def attach (r : Reading) (flag : Flag) (value : String) : Except UsageError Reading := do
  if flag.isSwitch then throw .tooManyValues
  let r ← r.close
  r.settle flag [value]

/-- A word that is no flag: a value for the flag that still takes one. -/
def value (r : Reading) (word : String) : Except UsageError Reading :=
  match r.pending with
  | some (flag, values) =>
    if flag.isOpen || values.isEmpty then
      .ok { r with pending := some (flag, values ++ [word]) }
    else .error .unknownArgument
  | none => .error .unknownArgument

end Reading

/-- A word with two dashes, given without them. -/
def longFlag (flags : List Flag) (r : Reading) (cs : List Char) : Except UsageError Reading :=
  let name := String.ofList (cs.takeWhile (· != '='))
  match flags.find? fun f => f.long == name, cs.dropWhile (· != '=') with
  | none, _ => .error .unknownArgument
  | some flag, [] => r.start flag
  | some flag, _ :: value => r.attach flag (String.ofList value)

/-- A word with one dash, given without it: a letter, with the rest of the word as its value. -/
def shortFlag (flags : List Flag) (r : Reading) (cs : List Char) : Except UsageError Reading :=
  match cs with
  | [] => .error .unknownArgument
  | c :: rest =>
    match flags.find? fun f => f.short? == some c with
    | none => .error .unknownArgument
    | some flag =>
      if flag.isSwitch then r.start flag
      else
        match rest with
        | [] => r.start flag
        | '=' :: value => r.attach flag (String.ofList value)
        | value => r.attach flag (String.ofList value)

/-- Reads the words after a command, which knows the given flags. -/
def readWords (flags : List Flag) : List String → Reading → Except UsageError Reading
  | [], r => r.close
  | word :: words, r => do
    match word.toList with
    | ['-', '-'] => if words.isEmpty then r.close else throw .unknownArgument
    | '-' :: '-' :: cs => readWords flags words (← longFlag flags r cs)
    | '-' :: c :: cs => readWords flags words (← shortFlag flags r (c :: cs))
    | _ => readWords flags words (← r.value word)

/-- The words after a command; an input has to be among them. -/
def readCommand (flags : List Flag) (words : List String) : Except UsageError GenerateArgs := do
  let r ← readWords flags words {}
  if r.args.input.isEmpty then throw .missingRequired
  return r.args

/-- The words that may stand first on a command line. -/
def commandNames : List String := ["generate", "inspect", "help"]

/-- The request that the words of a command line make. A command does not stand after two dashes. -/
def readLine (words : List String) : Except UsageError Request :=
  match words with
  | [] => .error .helpInstead
  | "generate" :: rest => (readCommand Flag.all rest).map .generate
  | "inspect" :: rest => (readCommand [.input, .help] rest).map fun a => .inspect a.input
  | "help" :: rest =>
    match rest with
    | [] | ["generate"] | ["inspect"] | ["help"] => .error .help
    | _ => .error .invalidCommand
  | ["--"] => .error .helpInstead
  | "--" :: word :: _ =>
    .error (if commandNames.contains word then .unknownArgument else .invalidCommand)
  | word :: _ =>
    match word.toList with
    | '-' :: 'h' :: _ => .error .help
    | '-' :: 'V' :: _ => .error .version
    | '-' :: _ :: _ =>
      if word = "--help" then .error .help
      else if word = "--version" then .error .version
      else if word.startsWith "--help=" || word.startsWith "--version=" then .error .tooManyValues
      else .error .unknownArgument
    | _ => .error .invalidCommand

end RestSpec.Command
