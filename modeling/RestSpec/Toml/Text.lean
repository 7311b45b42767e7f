/-
Blanks, comments, texts and keys of TOML. A text stands between double quotes, where a backslash
escapes, or between single ones, where nothing does; three quotes let it run over several lines.
-/
import RestSpec.Text.Words

namespace RestSpec.Toml

open Text (Reader hexChar?)

/-! ## Blanks, comments and lines -/

/-- The white space within a line. -/
def isBlank (c : Char) : Bool := c == ' ' || c == '\t'

/-- The text from its first character on that is not `isBlank`. -/
def skipBlank (cs : List Char) : List Char := cs.dropWhile isBlank

/-- Characters that may stand in comments and texts as they are. -/
def isPrintable (c : Char) : Bool := c == '\t' || (0x20 ≤ c.toNat && c.toNat ≠ 0x7F)

/-- The text after a line feed, which a carriage return may precede. -/
def newLine? : List Char → Option (List Char)
  | '\n' :: cs => some cs
  | '\r' :: '\n' :: cs => some cs
  | _ => none

/-- The text after a comment, if it starts with one. -/
def skipComment : List Char → List Char
  | '#' :: cs => cs.dropWhile isPrintable
  | cs => cs

/-- The text after the end of a line, on which only a comment is left. -/
def lineEnd? (cs : List Char) : Option (List Char) :=
  match skipComment (skipBlank cs) with
  | [] => some []
  | rest => newLine? rest

/-- Skips blanks, comments and ends of lines. -/
def skipLines : Nat → List Char → List Char
  | 0, cs => cs
  | fuel + 1, cs =>
    match newLine? (skipComment (skipBlank cs)) with
    | some rest => skipLines fuel rest
    | none => skipBlank cs

/-- The text after blanks, breaks and comments, on as many lines as there are. -/
def skipSpace (cs : List Char) : List Char := skipLines cs.length cs

/-! ## Texts -/

/-- The character that a backslash and one letter or mark stand for. -/
def simpleEscape : Char → Option Char
  | '"' => some '"'
  | '\\' => some '\\'
  | 'b' => some (Char.ofNat 8)
  | 't' => some '\t'
  | 'n' => some '\n'
  | 'f' => some (Char.ofNat 12)
  | 'r' => some '\r'
  | 'e' => some (Char.ofNat 27)
  | _ => none

/-- A character before the rest of a text, if both are there. -/
def before (c : Option Char) (rest : Option (List Char × List Char)) :
    Option (List Char × List Char) := do
  let c ← c
  let (text, after) ← rest
  return (c :: text, after)

/-- The text up to a double quote. -/
def basicBody : List Char → Option (List Char × List Char)
  | [] => none
  | '"' :: cs => some ([], cs)
  | '\\' :: 'x' :: a :: b :: cs => before (hexChar? [a, b]) (basicBody cs)
  | '\\' :: 'u' :: a :: b :: c :: d :: cs => before (hexChar? [a, b, c, d]) (basicBody cs)
  | '\\' :: 'U' :: a :: b :: c :: d :: e :: f :: g :: h :: cs =>
    before (hexChar? [a, b, c, d, e, f, g, h]) (basicBody cs)
  | '\\' :: e :: cs => before (simpleEscape e) (basicBody cs)
  | c :: cs => if isPrintable c && c ≠ '\\' then before (some c) (basicBody cs) else none

/-- The text up to a single quote. -/
def literalBody : List Char → Option (List Char × List Char)
  | [] => none
  | '\'' :: cs => some ([], cs)
  | c :: cs => if isPrintable c then before (some c) (literalBody cs) else none

/-- A backslash here is the last of its line. -/
def endsLine (cs : List Char) : Bool := (newLine? (skipBlank cs)).isSome

/-- The text up to three double quotes; two more may stand before them. After a backslash at the end
of a line, blanks and ends of lines are passed over while `skipping`. -/
def basicLines : Bool → List Char → Option (List Char × List Char)
  | _, [] => none
  | true, ' ' :: cs => basicLines true cs
  | true, '\t' :: cs => basicLines true cs
  | true, '\n' :: cs => basicLines true cs
  | true, '\r' :: '\n' :: cs => basicLines true cs
  | _, '"' :: '"' :: '"' :: '"' :: '"' :: cs => some (['"', '"'], cs)
  | _, '"' :: '"' :: '"' :: '"' :: cs => some (['"'], cs)
  | _, '"' :: '"' :: '"' :: cs => some ([], cs)
  | _, '\r' :: '\n' :: cs => before (some '\n') (basicLines false cs)
  | _, '\n' :: cs => before (some '\n') (basicLines false cs)
  | _, '\\' :: 'x' :: a :: b :: cs => before (hexChar? [a, b]) (basicLines false cs)
  | _, '\\' :: 'u' :: a :: b :: c :: d :: cs =>
    before (hexChar? [a, b, c, d]) (basicLines false cs)
  | _, '\\' :: 'U' :: a :: b :: c :: d :: e :: f :: g :: h :: cs =>
    before (hexChar? [a, b, c, d, e, f, g, h]) (basicLines false cs)
  | _, '\\' :: e :: cs =>
    if endsLine (e :: cs) then basicLines true cs
    else before (simpleEscape e) (basicLines false cs)
  | _, c :: cs => if isPrintable c && c ≠ '\\' then before (some c) (basicLines false cs) else none

/-- The text up to three single quotes; two more may stand before them. -/
def literalLines : List Char → Option (List Char × List Char)
  | [] => none
  | '\'' :: '\'' :: '\'' :: '\'' :: '\'' :: cs => some (['\'', '\''], cs)
  | '\'' :: '\'' :: '\'' :: '\'' :: cs => some (['\''], cs)
  | '\'' :: '\'' :: '\'' :: cs => some ([], cs)
  | '\r' :: '\n' :: cs => before (some '\n') (literalLines cs)
  | '\n' :: cs => before (some '\n') (literalLines cs)
  | c :: cs => if isPrintable c then before (some c) (literalLines cs) else none

/-- What a reader of characters reads, as a text. -/
def asText (read : Option (List Char × List Char)) : Option (String × List Char) :=
  read.map fun (text, rest) => (String.ofList text, rest)

/-- A text on one line. -/
def lineText? : List Char → Option (Option (String × List Char))
  | '"' :: cs => some (asText (basicBody cs))
  | '\'' :: cs => some (asText (literalBody cs))
  | _ => none

/-- The first end of a line after three opening quotes does not count. -/
def dropNewLine (cs : List Char) : List Char := (newLine? cs).getD cs

/-- A text, if a quote opens one; what is found then may be malformed. -/
def text? : List Char → Option (Option (String × List Char))
  | '"' :: '"' :: '"' :: cs => some (asText (basicLines false (dropNewLine cs)))
  | '\'' :: '\'' :: '\'' :: cs => some (asText (literalLines (dropNewLine cs)))
  | cs => lineText? cs

/-! ## Keys -/

/-- The characters of keys that stand without quotes. -/
def isKeyChar (c : Char) : Bool := c.isAlphanum || c == '-' || c == '_'

/-- A key without dots, bare or quoted. -/
def simpleKey : Reader String := fun cs =>
  match lineText? cs with
  | some found => found
  | none =>
    let name := cs.takeWhile isKeyChar
    if name.isEmpty then none else some (String.ofList name, cs.drop name.length)

/-- Keys with dots between them. -/
def keyPath : Nat → Reader (List String)
  | 0, _ => none
  | fuel + 1, cs => do
    let (name, rest) ← simpleKey cs
    match skipBlank rest with
    | '.' :: rest =>
      let (others, rest) ← keyPath fuel (skipBlank rest)
      return (name :: others, rest)
    | rest => return ([name], rest)

end RestSpec.Toml
