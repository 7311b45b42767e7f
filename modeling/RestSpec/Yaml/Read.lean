/-
Reading YAML text in flow style: brackets and braces, texts in double quotes, and words. Text in
this style may be laid out freely; outside of all brackets a tab does not indent a line.
-/
import RestSpec.Yaml.Node

namespace RestSpec.Yaml

open Text (Reader hexChar?)

/-! ## Characters -/

/-- Characters that may stand in a text at all. -/
def isReadable (c : Char) : Bool :=
  let n := c.toNat
  c == '\t' || c == '\r' || n = 0x85 || n = 0xFEFF || isPrintable c

/-- The white space within a line. -/
def isBlank (c : Char) : Bool := c == ' ' || c == '\t'

/-- The text from its first character on that is not `isBlankOrBreak`. -/
def skipSpace (cs : List Char) : List Char := cs.dropWhile isBlankOrBreak

/-! ## Texts in quotes -/

/-- The character that a backslash and one letter or mark stand for. -/
def simpleEscape : Char → Option Char
  | '0' => some (Char.ofNat 0)
  | 'a' => some (Char.ofNat 7)
  | 'b' => some (Char.ofNat 8)
  | 't' => some '\t'
  | '\t' => some '\t'
  | 'n' => some '\n'
  | 'v' => some (Char.ofNat 11)
  | 'f' => some (Char.ofNat 12)
  | 'r' => some '\r'
  | 'e' => some (Char.ofNat 27)
  | ' ' => some ' '
  | '"' => some '"'
  | '/' => some '/'
  | '\\' => some '\\'
  | 'N' => some (Char.ofNat 0x85)
  | '_' => some (Char.ofNat 0xA0)
  | 'L' => some (Char.ofNat 0x2028)
  | 'P' => some (Char.ofNat 0x2029)
  | _ => none

/-- Blanks and breaks that have been read but not yet taken into a text. -/
inductive Gap where
  /-- Blanks within a line. -/
  | blanks (cs : List Char)
  /-- The first break, if it counts, and those after it. -/
  | breaks (first : List Char) (others : List Char)

/-- A feed alone is read as a blank, and is dropped before further breaks; blanks around breaks do
not count. -/
def Gap.text : Gap → List Char
  | blanks cs => cs
  | breaks ['\n'] [] => [' ']
  | breaks ['\n'] others => others
  | breaks first others => first ++ others

/-- A blank more; blanks at the start of a line are left out. -/
def Gap.addBlank (c : Char) : Gap → Gap
  | blanks cs => blanks (cs ++ [c])
  | gap => gap

/-- The separators of lines and of paragraphs stay what they are; all other breaks are feeds. -/
def Gap.addBreak (c : Char) : Gap → Gap :=
  let c := if c.toNat = 0x2028 || c.toNat = 0x2029 then c else '\n'
  fun
  | blanks _ => breaks [c] []
  | breaks first others => breaks first (others ++ [c])

/-- The gap between characters that stand side by side. -/
def noGap : Gap := .blanks []

/-- A gap and a character before the rest of a text, if the last two are there. -/
def before (gap : Gap) (c : Option Char) (rest : Option (List Char × List Char)) :
    Option (List Char × List Char) := do
  let c ← c
  let (text, after) ← rest
  return (gap.text ++ c :: text, after)

/-- The text up to the closing quote. -/
def quotedBody : Gap → List Char → Option (List Char × List Char)
  | _, [] => none
  | gap, '"' :: cs => some (gap.text, cs)
  | gap, '\\' :: 'x' :: a :: b :: cs => before gap (hexChar? [a, b]) (quotedBody noGap cs)
  | gap, '\\' :: 'u' :: a :: b :: c :: d :: cs =>
    before gap (hexChar? [a, b, c, d]) (quotedBody noGap cs)
  | gap, '\\' :: 'U' :: a :: b :: c :: d :: e :: f :: g :: h :: cs =>
    before gap (hexChar? [a, b, c, d, e, f, g, h]) (quotedBody noGap cs)
  | gap, '\\' :: e :: cs =>
    if isBreak e then
      (quotedBody (.breaks [] []) cs).map fun (text, after) => (gap.text ++ text, after)
    else before gap (simpleEscape e) (quotedBody noGap cs)
  | gap, '\r' :: '\n' :: cs => quotedBody (gap.addBreak '\n') cs
  | gap, c :: cs =>
    if isBreak c then quotedBody (gap.addBreak c) cs
    else if isBlank c then quotedBody (gap.addBlank c) cs
    else before gap (some c) (quotedBody noGap cs)

/-! ## Nodes -/

/-- The characters that a plain word in a flow can hold. -/
def isWordChar (c : Char) : Bool := !isBlankOrBreak c && !",[]\x7b\x7d:#\"".toList.contains c

/-- A scalar: a text in quotes or a word. -/
def scalar : Reader Node
  | '"' :: cs => (quotedBody noGap cs).map fun (text, rest) => (.quoted (String.ofList text), rest)
  | cs =>
    let word := cs.takeWhile isWordChar
    match word with
    | [] => none
    | c :: _ =>
      if isIndicator c then none
      else some (.plain (String.ofList word), cs.drop word.length)

/-- Items up to the closing bracket, with commas between and perhaps one at the end. -/
def items (item : Reader Node) : Nat → Reader (List Node)
  | 0, _ => none
  | fuel + 1, cs =>
    match skipSpace cs with
    | ']' :: rest => some ([], rest)
    | cs => do
      let (v, rest) ← item cs
      match skipSpace rest with
      | ',' :: rest =>
        let (vs, rest) ← items item fuel rest
        return (v :: vs, rest)
      | ']' :: rest => return ([v], rest)
      | _ => none

/-- Entries up to the closing brace; the colon stands in the line of its key. -/
def entries (item : Reader Node) : Nat → Reader (List (String × Node))
  | 0, _ => none
  | fuel + 1, cs =>
    match skipSpace cs with
    | '\x7d' :: rest => some ([], rest)
    | cs => do
      let (key, rest) ← scalar cs
      match rest.dropWhile isBlank with
      | ':' :: rest =>
        let (v, rest) ← item (skipSpace rest)
        let name ← form.text? key
        match skipSpace rest with
        | ',' :: rest =>
          let (others, rest) ← entries item fuel rest
          return ((name, v) :: others, rest)
        | '\x7d' :: rest => return ([(name, v)], rest)
        | _ => none
      | _ => none

/-- Sequences and mappings may lie this deep inside each other. -/
def maxDepth : Nat := 128

/-- A node whose sequences and mappings lie at most `depth` inside each other. -/
def node : Nat → Reader Node
  | depth, '[' :: cs =>
    match depth with
    | 0 => none
    | depth + 1 => (items (node depth) (cs.length + 1) cs).map fun (vs, rest) => (.list vs, rest)
  | depth, '\x7b' :: cs =>
    match depth with
    | 0 => none
    | depth + 1 => (entries (node depth) (cs.length + 1) cs).map fun (es, rest) => (.map es, rest)
  | _, cs => scalar cs

/-! ## Documents -/

/-- Nothing but blanks and breaks, with no tab at the start of a line; `fresh` says that a line has
just begun. -/
def isOutside : Bool → List Char → Bool
  | _, [] => true
  | fresh, c :: cs =>
    if isBreak c then isOutside true cs
    else (c == ' ' || (c == '\t' && !fresh)) && isOutside fresh cs

/-- The node that a whole text is. -/
def parse? (text : String) : Option Node := do
  let cs := match text.toList with
    | c :: cs => if c.toNat = 0xFEFF then cs else c :: cs
    | [] => []
  if !cs.all isReadable then none
  let (v, rest) ← node maxDepth (cs.dropWhile fun c => c == ' ' || isBreak c)
  if isOutside false rest then some v else none

end RestSpec.Yaml
