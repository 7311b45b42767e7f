/-
TOML values that stand without quotes: truth values, whole numbers in four bases, fractions, and
dates and times.
-/
import RestSpec.Text.Words
import RestSpec.Toml.Basic

namespace RestSpec.Toml

open Text (numeral?)

/-! ## Numbers -/

/-- The digits without the underscores between them. -/
def digitsOf? : List Char → Option (List Char)
  | [] => none
  | [c] => if c == '_' then none else some [c]
  | c :: '_' :: d :: cs =>
    if c == '_' || d == '_' then none else (digitsOf? (d :: cs)).map (c :: ·)
  | c :: cs => if c == '_' then none else (digitsOf? cs).map (c :: ·)

/-- A sign apart from what follows it, and whether it is a minus. -/
def signed : List Char → Bool × List Char
  | '-' :: cs => (true, cs)
  | '+' :: cs => (false, cs)
  | cs => (false, cs)

/-- Decimal digits with no zero in front of others. -/
def isDecimal (digits : List Char) : Bool :=
  digits.all Char.isDigit && (digits.length = 1 || digits.head? ≠ some '0')

/-- Whole numbers are those that sixty-four bits hold, with or without a sign. -/
def inRange? (n : Int) : Option Int :=
  if -(Nat.pow 2 63) ≤ n ∧ n < Nat.pow 2 64 then some n else none

/-- A whole number; one in another base than ten has no sign. -/
def whole? (cs : List Char) : Option Int :=
  let inBase (base : Nat) (cs : List Char) : Option Int :=
    ((digitsOf? cs).bind (numeral? base)).bind fun n => inRange? n
  match cs with
  | '0' :: 'x' :: cs => inBase 16 cs
  | '0' :: 'o' :: cs => inBase 8 cs
  | '0' :: 'b' :: cs => inBase 2 cs
  | cs => do
    let (negative, cs) := signed cs
    let digits ← digitsOf? cs
    if !isDecimal digits then none
    let n : Nat ← numeral? 10 digits
    inRange? (if negative then -(n : Int) else n)

/-- Digits, of which single ones may have an underscore between. -/
def isDigitRun (cs : List Char) : Bool :=
  match digitsOf? cs with
  | some digits => digits.all Char.isDigit
  | none => false

/-- A number with a fraction or an exponent or both, or one that is none or without end. -/
def isFraction (cs : List Char) : Bool :=
  let (_, cs) := signed cs
  let isPart (c : Char) := c.isDigit || c == '_'
  let exponentOk : List Char → Bool
    | 'e' :: cs | 'E' :: cs => isDigitRun (signed cs).2
    | _ => false
  let first := cs.takeWhile isPart
  let wholeOk := match digitsOf? first with
    | some digits => isDecimal digits
    | none => false
  if cs = ['i', 'n', 'f'] || cs = ['n', 'a', 'n'] then true
  else wholeOk &&
    match cs.dropWhile isPart with
    | '.' :: cs =>
      let rest := cs.dropWhile isPart
      isDigitRun (cs.takeWhile isPart) && (rest.isEmpty || exponentOk rest)
    | cs => exponentOk cs

/-! ## Dates and times -/

/-- A number of exactly as many digits. -/
def digits? (count : Nat) (cs : List Char) : Option (Nat × List Char) :=
  let digits := cs.take count
  if digits.length = count && digits.all Char.isDigit then
    (numeral? 10 digits).map (·, cs.drop count)
  else none

/-- How many days the month has. -/
def daysIn (year month : Nat) : Nat :=
  if month = 2 then
    if year % 4 = 0 && (year % 100 ≠ 0 || year % 400 = 0) then 29 else 28
  else if month = 4 || month = 6 || month = 9 || month = 11 then 30
  else 31

/-- The text after a day. -/
def afterDay? (cs : List Char) : Option (List Char) := do
  let (year, cs) ← digits? 4 cs
  match cs with
  | '-' :: cs =>
    let (month, cs) ← digits? 2 cs
    match cs with
    | '-' :: cs =>
      let (day, cs) ← digits? 2 cs
      if 1 ≤ month && month ≤ 12 && 1 ≤ day && day ≤ daysIn year month then some cs else none
    | _ => none
  | _ => none

/-- The text after hours and minutes. -/
def afterMinute? (cs : List Char) : Option (List Char) := do
  let (hour, cs) ← digits? 2 cs
  match cs with
  | ':' :: cs =>
    let (minute, cs) ← digits? 2 cs
    if hour ≤ 23 && minute ≤ 59 then some cs else none
  | _ => none

/-- The text after a time of day, which may leave out the seconds. -/
def afterTime? (cs : List Char) : Option (List Char) := do
  match ← afterMinute? cs with
  | ':' :: cs =>
    let (second, cs) ← digits? 2 cs
    if second > 60 then none
    match cs with
    | '.' :: c :: cs => if c.isDigit then some (cs.dropWhile Char.isDigit) else none
    | cs => some cs
  | cs => some cs

/-- Nothing, or the distance to universal time. -/
def isOffset : List Char → Bool
  | [] => true
  | ['Z'] | ['z'] => true
  | '+' :: cs | '-' :: cs => afterMinute? cs = some []
  | _ => false

/-- A day, a time of day, or both. -/
def isDate (cs : List Char) : Bool :=
  match afterDay? cs with
  | some [] => true
  | some (c :: cs) =>
    (c == 'T' || c == 't' || c == ' ') && ((afterTime? cs).map isOffset).getD false
  | none => afterTime? cs = some []

/-! ## Values -/

/-- The value that a run of characters without quotes is. -/
def scalar? (cs : List Char) : Option Value :=
  if cs = ['t', 'r', 'u', 'e'] then some (.truth true)
  else if cs = ['f', 'a', 'l', 's', 'e'] then some (.truth false)
  else
    match whole? cs with
    | some n => some (.whole n)
    | none =>
      if isFraction cs then some (.fraction (String.ofList cs))
      else if isDate cs then some (.date (String.ofList cs))
      else none

/-- The characters that numbers, dates and truth values are made of. -/
def isScalarChar (c : Char) : Bool :=
  c.isAlphanum || c == '+' || c == '-' || c == '_' || c == '.' || c == ':'

/-- The run of characters at the front; a blank may stand between a day and a time. -/
def scalarRun (cs : List Char) : List Char :=
  let run := cs.takeWhile isScalarChar
  match cs.drop run.length with
  | ' ' :: c :: rest =>
    if c.isDigit && afterDay? run = some [] then
      run ++ ' ' :: (c :: rest).takeWhile isScalarChar
    else run
  | _ => run

end RestSpec.Toml
