/-
What a YAML scalar without quotes reads as, and the characters that mean something to YAML. Reading
goes by these rules, and writing quotes a text that would not come back as itself.
-/
import RestSpec.Json.Basic
import RestSpec.Number.Binary64
import RestSpec.Text.Words

namespace RestSpec.Yaml

open Text (numeral?)

/-! ## Words -/

/-- The plain words that mean true. -/
def trueWords : List String := ["true", "True", "TRUE"]

/-- The plain words that mean false. -/
def falseWords : List String := ["false", "False", "FALSE"]

/-- The plain words that mean that there is no value. -/
def nullWords : List String := ["", "~", "null", "Null", "NULL"]

/-- The plain words that mean numbers without digits, which settings and modules never have. -/
def specialNumbers : List String :=
  [".inf", ".Inf", ".INF", "+.inf", "+.Inf", "+.INF", "-.inf", "-.Inf", "-.INF", ".nan", ".NaN",
   ".NAN"]

/-- The text without one sign at its front. -/
def unsigned : List Char → List Char
  | '+' :: cs => cs
  | '-' :: cs => cs
  | cs => cs

/-- Digits with a zero in front of others: no number, but easily taken for one. -/
def isZeroPadded (cs : List Char) : Bool :=
  match unsigned cs with
  | '0' :: c :: cs => (c :: cs).all Char.isDigit
  | _ => false

/-- Nothing, or an exponent: `e`, a sign or none, and digits. -/
def isExponent : List Char → Bool
  | [] => true
  | e :: cs =>
    (e == 'e' || e == 'E') && !(unsigned cs).isEmpty && (unsigned cs).all Char.isDigit

/-- Digits with at most one point among them, and an exponent perhaps. -/
def isDecimalNumber (cs : List Char) : Bool :=
  let whole := (unsigned cs).takeWhile Char.isDigit
  match (unsigned cs).dropWhile Char.isDigit with
  | '.' :: cs =>
    let fraction := cs.takeWhile Char.isDigit
    !(whole.isEmpty && fraction.isEmpty) && isExponent (cs.dropWhile Char.isDigit)
  | cs => !whole.isEmpty && isExponent cs

/-! ## Numbers -/

/-- A whole number in one of four bases. -/
def whole? (cs : List Char) : Option Int :=
  let size : Option Nat :=
    match unsigned cs with
    | '0' :: 'x' :: cs => numeral? 16 cs
    | '0' :: 'o' :: cs => numeral? 8 cs
    | '0' :: 'b' :: cs => numeral? 2 cs
    | cs => if isZeroPadded cs then none else numeral? 10 cs
  size.map fun n => if cs.head? = some '-' then -(n : Int) else n

/-- Digits, and the power of ten that they count. -/
def scientific (cs : List Char) : Nat × Int :=
  let number (digits : List Char) : Nat := (numeral? 10 digits).getD 0
  let whole := cs.takeWhile Char.isDigit
  let (fraction, rest) :=
    match cs.drop whole.length with
    | '.' :: cs => (cs.takeWhile Char.isDigit, cs.dropWhile Char.isDigit)
    | cs => ([], cs)
  let exponent : Int :=
    match rest with
    | _ :: '-' :: digits => -(number digits : Int)
    | _ :: '+' :: digits => number digits
    | _ :: digits => number digits
    | [] => 0
  (number (whole ++ fraction), exponent - fraction.length)

/-- The double nearest to a decimal number, if it is not too great for one. -/
def fraction? (cs : List Char) : Option Json :=
  if isZeroPadded cs || !isDecimalNumber cs then none
  else
    let (digits, exponent) := scientific (unsigned cs)
    (Binary64.ofDecimal digits exponent).map fun x =>
      .decimal (x.shortest (cs.head? == some '-'))

/-! ## Values -/

/-- The value of a scalar without quotes. Whole numbers beyond sixty-four bits are refused as long
as twice as many bits hold them. -/
def plainValue? (spelling : String) : Option Json :=
  let cs := spelling.toList
  if nullWords.contains spelling || specialNumbers.contains spelling then some .null
  else if trueWords.contains spelling then some (.bool true)
  else if falseWords.contains spelling then some (.bool false)
  else
    match whole? cs with
    | some n =>
      if -(Nat.pow 2 63) ≤ n ∧ n < Nat.pow 2 64 then some (.int n)
      else if -(Nat.pow 2 127) ≤ n ∧ n < Nat.pow 2 128 then none
      else some ((fraction? cs).getD (.str spelling))
    | none => some ((fraction? cs).getD (.str spelling))

/-- The text does not come back when it is read without quotes, or looks as if it might not. -/
def readsAsOther (s : String) : Bool :=
  match plainValue? s with
  | some (.str _) => isZeroPadded s.toList
  | _ => true

/-! ## Characters -/

/-- Characters that may stand in the text as they are. -/
def isPrintable (c : Char) : Bool :=
  let n := c.toNat
  n = 0xA || (0x20 ≤ n && n ≤ 0x7E) || (0xA0 ≤ n && n ≠ 0xFEFF && n ≠ 0xFFFE && n ≠ 0xFFFF)

/-- The characters that end a line. -/
def isBreak (c : Char) : Bool :=
  let n := c.toNat
  n = 0xA || n = 0xD || n = 0x85 || n = 0x2028 || n = 0x2029

/-- The white space within and between lines. -/
def isBlankOrBreak (c : Char) : Bool := c == ' ' || c == '\t' || isBreak c

/-- The characters with which no plain text can start. -/
def isIndicator (c : Char) : Bool := "#,[]\x7b\x7d&*!|>'\"%@\x60".toList.contains c

/-- A mark of the language at the start of a text. -/
def startsWithMark : List Char → Bool
  | '-' :: '-' :: '-' :: _ => true
  | '.' :: '.' :: '.' :: _ => true
  | c :: cs =>
    isIndicator c || ((c == '?' || c == ':' || c == '-') && (cs.head?.map isBlankOrBreak).getD true)
  | [] => false

/-- A colon before a blank, or a number sign after one. -/
def containsMark : List Char → Bool
  | [] => false
  | [_] => false
  | c :: d :: cs =>
    (d == ':' && (cs.head?.map isBlankOrBreak).getD true) || (isBlankOrBreak c && d == '#') ||
      containsMark (d :: cs)

/-- A blank next to a line break, blank first or break first. -/
def hasPair (first second : Char → Bool) : List Char → Bool
  | c :: d :: cs => (first c && second d) || hasPair first second (d :: cs)
  | _ => false

end RestSpec.Yaml
