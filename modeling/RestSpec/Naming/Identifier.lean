/-
Names made from identifiers of a data model: `server-group` becomes the class `ServerGroup`, the
module `acme-system` the package `acme.system`, and a list of names the id of an operation. A name
that is taken gets a number; there is one more number to try than there are names taken.
-/
import RestSpec.Text.Lowercase
import RestSpec.Text.Words

namespace RestSpec.Naming

open RestSpec.Text

/-- Words that generated code reserves, in lower case. -/
def reservedWords : List String :=
  ["as", "break", "const", "continue", "crate", "else", "enum", "extern", "false", "fn", "for",
   "if", "impl", "in", "let", "loop", "match", "mod", "move", "mut", "pub", "ref", "return",
   "self", "static", "struct", "super", "trait", "true", "type", "unsafe", "use", "where",
   "while", "async", "await", "dyn"]

/-- The text with its first letter in upper case and the rest as it is. -/
def capitalize : List Char → List Char
  | [] => []
  | c :: cs => c.toUpper :: cs

/-- The words of letters and digits, each with a capital, run together. -/
def camelCaseChars (cs : List Char) : List Char :=
  ((words isAsciiLetterOrDigit cs).map capitalize).flatten

/-- The text that `camelCaseChars` makes of the characters. -/
def camelCase (s : String) : String :=
  String.ofList (camelCaseChars s.toList)

/-- Nothing becomes `_`, and a digit in front gets `_` before it. -/
def guardStart : List Char → List Char
  | [] => ['_']
  | c :: cs => if c.isDigit then '_' :: c :: cs else c :: cs

/-- A reserved word, in any case, gets `_` after it. -/
def guardReserved (cs : List Char) : List Char :=
  if reservedWords.any fun w => w.toList == cs.map Char.toLower then cs ++ ['_'] else cs

/-- The class of an identifier: letters, digits and `_`, no digit in front, no reserved word. -/
def className (identifier : String) : String :=
  String.ofList (guardReserved (guardStart (camelCaseChars identifier.toList)))

/-- The package of a module: its parts in lower case, with dots between. -/
def packageName (moduleName : String) : String :=
  let parts := words (fun c => c != '-' && c != '_' && c != '.') (lowercase moduleName).toList
  String.ofList (joined ['.'] (parts.map guardStart))

/-- The id of an operation: its method and the names it is about, in `lowercase`, as ASCII words
with underscores between. -/
def operationId (method : String) (names : List String) : String :=
  let text := lowercase ("_".intercalate (method :: names))
  String.ofList (joined ['_'] (words (fun c => c.isLower || c.isDigit) text.toList))

/-! ## Names that are not taken -/

/-- The first of `name 1`, `name 2`, ... that is not taken. -/
def firstFree (taken : List String) (name : Nat → String) : String :=
  let place := (List.range (taken.length + 1)).find? fun i => !taken.contains (name (i + 1))
  name (place.getD 0 + 1)

/-- The name with a mark and a number after it. -/
def numbered (name mark : String) (n : Nat) : String := name ++ mark ++ toString n

/-- The name itself if it is free, else `name_1`, `name_2`, ... -/
def unique (taken : List String) (name : String) : String :=
  if taken.contains name then firstFree taken (numbered name "_") else name

end RestSpec.Naming
