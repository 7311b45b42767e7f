/-
How a text is written in YAML. A text that would not read back as itself when it stands plain is
put between single quotes, one with line breaks becomes a block, and one with characters that
neither can show is put between double quotes.
-/
import RestSpec.Json.Print
import RestSpec.Yaml.Plain

namespace RestSpec.Yaml

/-! ## Styles -/

/-- The ways to write a text; `styleOf` picks one. -/
inductive Style where
  | plain
  | single
  | double
  | block
  deriving DecidableEq

/-- The first or the last character is one of the class. -/
def edgeIs (p : Char → Bool) (cs : List Char) : Bool :=
  (cs.head?.map p).getD false || (cs.getLast?.map p).getD false

/-- The style of a text. Only a block shows line feeds as they are; the other breaks that can be
shown stand between single quotes as well. -/
def styleOf (s : String) : Style :=
  let cs := s.toList
  let isSpace (c : Char) := c == ' '
  let special := cs.any (!isPrintable ·) || hasPair isSpace isBreak cs
  let quotes := if special || hasPair isBreak isSpace cs then Style.double else .single
  if cs.any (· == '\n') then
    if special || (cs.getLast?.map isSpace).getD false then .double else .block
  else if readsAsOther s then quotes
  else if special || cs.any isBreak || edgeIs isSpace cs || startsWithMark cs ||
      containsMark cs then quotes
  else .plain

/-- The last hexadecimal digits of a number, as many as asked for, in upper case. -/
def hexDigits (width n : Nat) : List Char :=
  (List.range width).reverse.map fun i => (Json.hexDigit (n / Nat.pow 16 i % 16)).toUpper

/-- A character as it stands between double quotes. -/
def escape (c : Char) : List Char :=
  let n := c.toNat
  if c == '"' || c == '\\' then ['\\', c]
  else if isPrintable c && !isBreak c then [c]
  else if n = 0 then ['\\', '0']
  else if n = 7 then ['\\', 'a']
  else if n = 8 then ['\\', 'b']
  else if n = 9 then ['\\', 't']
  else if n = 10 then ['\\', 'n']
  else if n = 11 then ['\\', 'v']
  else if n = 12 then ['\\', 'f']
  else if n = 13 then ['\\', 'r']
  else if n = 27 then ['\\', 'e']
  else if n = 0x85 then ['\\', 'N']
  else if n = 0x2028 then ['\\', 'L']
  else if n = 0x2029 then ['\\', 'P']
  else if n ≤ 0xFF then '\\' :: 'x' :: hexDigits 2 n
  else if n ≤ 0xFFFF then '\\' :: 'u' :: hexDigits 4 n
  else '\\' :: 'U' :: hexDigits 8 n

/-- The spaces before a line at an indent. -/
def pad (indent : Nat) : List Char := List.replicate indent ' '

/-- Lines of a text, each indented unless it is empty; `fresh` says that a line has just begun, and
`write` how a character other than a break is written. -/
def indentLines (indent : Nat) (write : Char → List Char) : Bool → List Char → List Char
  | _, [] => []
  | fresh, c :: cs =>
    if isBreak c then c :: indentLines indent write true cs
    else (if fresh then pad indent else []) ++ write c ++ indentLines indent write false cs

/-- The last character ends a line. -/
def endsInBreak (cs : List Char) : Bool := (cs.getLast?.map isBreak).getD false

/-- What stands between single quotes: quotes doubled, and the closing one indented in a line of
its own. -/
def singleBody (indent : Nat) (cs : List Char) : List Char :=
  indentLines indent (fun c => if c == '\'' then ['\'', '\''] else [c]) false cs ++
    if endsInBreak cs then pad indent else []

/-- What the head of a block says of the line breaks around its text. -/
def blockHints (cs : List Char) : List Char :=
  let start := if (cs.head?.map fun c => c == ' ' || isBreak c).getD false then ['2'] else []
  let ending :=
    match cs.reverse with
    | last :: before =>
      if !isBreak last then ['-']
      else if (before.head?.map isBreak).getD true then ['+']
      else []
    | [] => ['-']
  start ++ ending

/-- A text; its lines after the first are indented as given. -/
def writeText (indent : Nat) (s : String) : String :=
  let cs := s.toList
  String.ofList <|
    match styleOf s with
    | .plain => cs
    | .single => '\'' :: singleBody indent cs ++ ['\'']
    | .double => '"' :: cs.flatMap escape ++ ['"']
    | .block => '|' :: (blockHints cs ++ '\n' :: indentLines indent (fun c => [c]) true cs)

end RestSpec.Yaml
