/-
Decimal fractions `± digits · 10 ^ exponent` and the text they are written as.
-/
namespace RestSpec

/-- A decimal fraction: its sign, its digits as one number, and the power of ten that they count. -/
structure Decimal where
  negative : Bool
  digits : Nat
  exponent : Int
  deriving DecidableEq, Repr

namespace Decimal

/-- Positional with at most sixteen digits before the point and at most four zeros after it, and
with an exponent otherwise. A fraction or an exponent always shows, and `plus` stands in front of
an exponent that is not negative. -/
def textWith (plus : List Char) (d : Decimal) : String :=
  let ds := Nat.toDigits 10 d.digits
  let point : Int := ds.length + d.exponent
  let zeros (n : Int) : List Char := List.replicate n.toNat '0'
  let body :=
    if 0 ≤ d.exponent ∧ point ≤ 16 then ds ++ zeros d.exponent ++ ['.', '0']
    else if 0 < point ∧ point ≤ 16 then ds.take point.toNat ++ '.' :: ds.drop point.toNat
    else if -5 < point ∧ point ≤ 0 then '0' :: '.' :: (zeros (-point) ++ ds)
    else
      let fraction := if ds.length = 1 then [] else '.' :: ds.drop 1
      let sign := if 0 < point then plus else []
      ds.take 1 ++ fraction ++ 'e' :: (sign ++ (toString (point - 1)).toList)
  String.ofList (if d.negative then '-' :: body else body)

/-- Great numbers as in `1e21`. -/
def text (d : Decimal) : String := d.textWith []

/-- Great numbers as in `1e+21`. -/
def signedText (d : Decimal) : String := d.textWith ['+']

end Decimal

end RestSpec
