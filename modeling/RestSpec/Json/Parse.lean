/-
Reading JSON text. `Json.parse` takes one value with white space around it and nothing else; arrays
and objects may lie inside each other up to `maxDepth`. Members of an object are kept as written,
repeated names included.
-/
import RestSpec.Json.Basic
import RestSpec.Number.Binary64
import RestSpec.Text.Words

namespace RestSpec.Json

open Text (Reader digitValue hexValue literal)

/-- How many arrays and objects may lie inside each other. -/
def maxDepth : Nat := 127

/-- The text from its first character on that is no JSON white space. -/
def skipSpace (cs : List Char) : List Char :=
  cs.dropWhile fun c => c == ' ' || c == '\n' || c == '\t' || c == '\r'

/-! ## Strings -/

/-- The number that four hexadecimal digits make: one unit of an escape with `u`. -/
def hexUnit (a b c d : Char) : Option Nat := do
  return (((← hexValue a) * 16 + (← hexValue b)) * 16 + (← hexValue c)) * 16 + (← hexValue d)

/-- A character as it stands, or a sixteen-bit unit from an escape. -/
inductive Piece where
  | char (c : Char)
  | unit (n : Nat)

/-- The character that a backslash and one letter or mark stand for. -/
def simpleEscape : Char → Option Char
  | '"' => some '"'
  | '\\' => some '\\'
  | '/' => some '/'
  | 'b' => some (Char.ofNat 8)
  | 'f' => some (Char.ofNat 12)
  | 'n' => some '\n'
  | 'r' => some '\r'
  | 't' => some '\t'
  | _ => none

/-- The pieces up to the closing quote. -/
def pieces : Reader (List Piece)
  | [] => none
  | '"' :: cs => some ([], cs)
  | '\\' :: 'u' :: a :: b :: c :: d :: cs => do
    let n ← hexUnit a b c d
    let (ps, rest) ← pieces cs
    return (.unit n :: ps, rest)
  | '\\' :: e :: cs => do
    let c ← simpleEscape e
    let (ps, rest) ← pieces cs
    return (.char c :: ps, rest)
  | c :: cs =>
    if c.toNat < 0x20 || c == '\\' then none
    else do
      let (ps, rest) ← pieces cs
      return (.char c :: ps, rest)

/-- Two units of a pair make one character; a unit of a pair alone makes none. -/
def joinPieces : List Piece → Option (List Char)
  | [] => some []
  | .char c :: ps => (joinPieces ps).map (c :: ·)
  | .unit n :: ps =>
    if 0xD800 ≤ n && n < 0xDC00 then
      match ps with
      | .unit m :: ps =>
        if 0xDC00 ≤ m && m < 0xE000 then
          (joinPieces ps).map (Char.ofNat (0x10000 + (n - 0xD800) * 0x400 + (m - 0xDC00)) :: ·)
        else none
      | _ => none
    else if 0xDC00 ≤ n && n < 0xE000 then none
    else (joinPieces ps).map (Char.ofNat n :: ·)

/-- The text after an opening quote. -/
def stringBody : Reader String := fun cs => do
  let (ps, rest) ← pieces cs
  return (String.ofList (← joinPieces ps), rest)

/-! ## Numbers -/

/-- The greatest significand that is read digit by digit; the digits after it only count. -/
def greatestSignificand : Nat := Nat.pow 2 64 - 1

/-- Digits taken into the significand while it stays in sixty-four bits, and the number of digits
that are left over. -/
def significandOf : Nat → List Char → Nat × Nat
  | n, [] => (n, 0)
  | n, c :: cs =>
    let next := n * 10 + digitValue c
    if next ≤ greatestSignificand then significandOf next cs else (n, (c :: cs).length)

/-- The exponent after `e` or `E`. -/
def exponentPart : Reader Int := fun cs =>
  let (negative, cs) :=
    match cs with
    | '+' :: cs => (false, cs)
    | '-' :: cs => (true, cs)
    | cs => (false, cs)
  let digits := cs.takeWhile Char.isDigit
  if digits.isEmpty then none
  else
    let n := digits.foldl (fun n c => n * 10 + digitValue c) 0
    some (if negative then -(n : Int) else n, cs.drop digits.length)

/-- The decimal for a significand and an exponent, by the shortest text of the nearest `Binary64`,
if that is finite. -/
def decimalOf (negative : Bool) (significand : Nat) (exponent : Int) : Option Json :=
  (Binary64.ofScientific significand exponent).map fun x => decimal (x.shortest negative)

/-- The fraction and the exponent, if there are any, of a number with the given whole part. -/
def numberTail (negative : Bool) (whole : List Char) : Reader Json := fun cs =>
  let (significand, dropped) := significandOf 0 whole
  let (fraction, afterFraction) :=
    match cs with
    | '.' :: rest =>
      let digits := rest.takeWhile Char.isDigit
      (some digits, rest.drop digits.length)
    | cs => (none, cs)
  if fraction = some [] then none
  else
    let digits := fraction.getD []
    let (significand', unread) := significandOf significand digits
    let places : Int := dropped - ((digits.length - unread : Nat) : Int)
    match afterFraction with
    | 'e' :: rest | 'E' :: rest => do
      let (e, rest) ← exponentPart rest
      return (← decimalOf negative significand' (places + e), rest)
    | rest =>
      if fraction.isSome || dropped > 0 then
        (decimalOf negative significand' places).map (·, rest)
      else if !negative then some (int significand, rest)
      else if significand = 0 || significand > Nat.pow 2 63 then
        (decimalOf negative significand 0).map (·, rest)
      else some (int (-(significand : Int)), rest)

/-- A number after its sign: no zero in front of other digits. -/
def unsignedNumber (negative : Bool) : Reader Json := fun cs =>
  let whole := cs.takeWhile Char.isDigit
  match whole with
  | [] => none
  | '0' :: _ :: _ => none
  | _ => numberTail negative whole (cs.drop whole.length)

/-! ## Values -/

/-- Items up to the closing bracket; at least one. -/
def items (item : Reader Json) : Nat → Reader (List Json)
  | 0, _ => none
  | fuel + 1, cs => do
    let (v, rest) ← item cs
    match skipSpace rest with
    | ',' :: rest =>
      let (vs, rest) ← items item fuel rest
      return (v :: vs, rest)
    | ']' :: rest => return ([v], rest)
    | _ => none

/-- Members up to the closing brace; at least one. -/
def members (item : Reader Json) : Nat → Reader (List (String × Json))
  | 0, _ => none
  | fuel + 1, cs =>
    match skipSpace cs with
    | '"' :: cs => do
      let (name, rest) ← stringBody cs
      match skipSpace rest with
      | ':' :: rest =>
        let (v, rest) ← item rest
        match skipSpace rest with
        | ',' :: rest =>
          let (ms, rest) ← members item fuel rest
          return ((name, v) :: ms, rest)
        | '\x7d' :: rest => return ([(name, v)], rest)
        | _ => none
      | _ => none
    | _ => none

/-- A value whose arrays and objects lie at most `depth` inside each other. -/
def value : Nat → Reader Json
  | depth, cs =>
    match skipSpace cs with
    | '"' :: cs => (stringBody cs).map fun (s, rest) => (str s, rest)
    | '-' :: cs => unsignedNumber true cs
    | '[' :: cs =>
      match depth with
      | 0 => none
      | depth + 1 =>
        match skipSpace cs with
        | ']' :: rest => some (arr [], rest)
        | cs => (items (value depth) cs.length cs).map fun (vs, rest) => (arr vs, rest)
    | '\x7b' :: cs =>
      match depth with
      | 0 => none
      | depth + 1 =>
        match skipSpace cs with
        | '\x7d' :: rest => some (obj [], rest)
        | cs => (members (value depth) cs.length cs).map fun (ms, rest) => (obj ms, rest)
    | 'n' :: _ => literal "null" null (skipSpace cs)
    | 't' :: _ => literal "true" (bool true) (skipSpace cs)
    | 'f' :: _ => literal "false" (bool false) (skipSpace cs)
    | cs => unsignedNumber false cs

/-- The value that the whole text is. -/
def parse (text : String) : Option Json := do
  let (v, rest) ← value maxDepth text.toList
  if (skipSpace rest).isEmpty then some v else none

end RestSpec.Json
