/-
Non-negative double-precision numbers as `mantissa · 2 ^ exponent`, with rounding to the nearest
one and the shortest decimal that reads back as it. All arithmetic is exact, on natural numbers.
-/
import RestSpec.Number.Decimal

namespace RestSpec

/-- A finite number `mantissa · 2 ^ exponent` that is not negative, as 64 bits hold it. -/
structure Binary64 where
  mantissa : Nat
  exponent : Int
  deriving DecidableEq, Repr

namespace Binary64

/-- The exponent of the smallest numbers, which are multiples of `2 ^ leastExponent`. -/
def leastExponent : Int := -1074

/-- The exponent of the greatest numbers that are finite. -/
def greatestExponent : Int := 971

/-- Zero, with the least exponent. -/
def zero : Binary64 := ⟨0, leastExponent⟩

/-- Numerator and denominator of the value. -/
def ratio (x : Binary64) : Nat × Nat :=
  (x.mantissa * Nat.pow 2 x.exponent.toNat, Nat.pow 2 (-x.exponent).toNat)

/-- The whole number nearest to `num / den`; a half goes to the even neighbour. -/
def roundHalfEven (num den : Nat) : Nat :=
  let q := num / den
  let r := num % den
  if 2 * r > den || (2 * r == den && q % 2 == 1) then q + 1 else q

/-- The double nearest to `num / den`, or none if that lies beyond the greatest double. -/
def nearest (num den : Nat) : Option Binary64 :=
  if num = 0 then some zero
  else
    let scaled (e : Int) : Nat × Nat := (num * Nat.pow 2 (-e).toNat, den * Nat.pow 2 e.toNat)
    let guess : Int := (num.log2 : Int) - den.log2 - 52
    let (n, d) := scaled guess
    let e := max leastExponent (if n / d < Nat.pow 2 52 then guess - 1 else guess)
    let (n, d) := scaled e
    let m := roundHalfEven n d
    let x : Binary64 := if m = Nat.pow 2 53 then ⟨Nat.pow 2 52, e + 1⟩ else ⟨m, e⟩
    if x.exponent > greatestExponent then none else some x

/-- The product, rounded to the nearest number, if that is finite. -/
def mul (x y : Binary64) : Option Binary64 :=
  let (a, b) := x.ratio
  let (c, d) := y.ratio
  nearest (a * c) (b * d)

/-- `x / y` for a `y` that is not zero. -/
def div (x y : Binary64) : Option Binary64 :=
  let (a, b) := x.ratio
  let (c, d) := y.ratio
  nearest (a * d) (b * c)

/-! ## Decimals -/

/-- Powers of ten beyond this one are greater than every double. -/
def beyondPower : Int := 400

/-- The double nearest to `digits · 10 ^ exponent`, or none if that lies beyond the greatest. -/
def ofDecimal (digits : Nat) (exponent : Int) : Option Binary64 :=
  if digits = 0 then some zero
  else if exponent > beyondPower then none
  else if exponent + (Nat.toDigits 10 digits).length < -beyondPower then some zero
  else nearest (digits * Nat.pow 10 exponent.toNat) (Nat.pow 10 (-exponent).toNat)

/-- The least `p` with `num / den < 10 ^ p`, for a value that is not zero. -/
def decimalPoint (num den : Nat) : Int :=
  if den ≤ num then ((Nat.toDigits 10 (num / den)).length : Int)
  else
    let zeros := ((List.range 400).find? fun z => den ≤ num * Nat.pow 10 (z + 1)).getD 0
    0 - (zeros : Int)

/-- The decimals with `count` significant digits next to `x`, those only that read back as `x`. -/
def readBackNeighbours (x : Binary64) (point : Int) (count : Nat) : List (Nat × Nat) :=
  let unit : Int := point - count
  -- everything in quarters of the last binary place, scaled to whole numbers
  let two : Int := x.exponent - 2
  let scale (n : Nat) (binary decimal : Int) : Nat :=
    n * Nat.pow 2 binary.toNat * Nat.pow 10 decimal.toNat
  let binarySide (quarters : Nat) : Nat := scale quarters two (-unit)
  let decimalSide (c : Nat) : Nat := scale c (-two) unit
  let value := binarySide (4 * x.mantissa)
  let below := if x.mantissa = Nat.pow 2 52 && x.exponent > leastExponent then 1 else 2
  let low := binarySide (4 * x.mantissa - below)
  let high := binarySide (4 * x.mantissa + 2)
  let even := x.mantissa % 2 == 0
  let floor := value / decimalSide 1
  [floor, floor + 1].filterMap fun c =>
    let v := decimalSide c
    if (low < v && v < high) || (even && (v == low || v == high)) then
      some (c, if v < value then value - v else v - value)
    else none

/-- Moves zeros at the end of the digits into the exponent, at most as many as the fuel. -/
def stripZeros : Nat → Nat → Int → Nat × Int
  | 0, digits, exponent => (digits, exponent)
  | fuel + 1, digits, exponent =>
    if digits ≠ 0 && digits % 10 == 0 then stripZeros fuel (digits / 10) (exponent + 1)
    else (digits, exponent)

/-- The shortest decimal that reads back as `x`; of two, the nearer, and at a tie the even one. -/
def shortest (negative : Bool) (x : Binary64) : Decimal :=
  if x.mantissa = 0 then ⟨negative, 0, 0⟩
  else
    let (num, den) := x.ratio
    let point := decimalPoint num den
    let found := (List.range 17).findSome? fun i =>
      match readBackNeighbours x point (i + 1) with
      | [] => none
      | [(c, _)] => some (c, point - (i + 1 : Nat))
      | (a, da) :: (b, db) :: _ =>
        let c := if da < db then a else if db < da then b else if a % 2 == 0 then a else b
        some (c, point - (i + 1 : Nat))
    match found with
    | some (digits, exponent) =>
      let (digits, exponent) := stripZeros 17 digits exponent
      ⟨negative, digits, exponent⟩
    | none => ⟨negative, 0, 0⟩

/-- The greatest power of ten that is used in one step. -/
def greatestPower : Nat := 308

/-- The double nearest to a power of ten. -/
def powerOfTen (n : Nat) : Option Binary64 := nearest (Nat.pow 10 n) 1

/-- `x · 10 ^ -places`, in at most `steps` divisions that each round to a double. -/
def shiftDown : Nat → Binary64 → Nat → Option Binary64
  | 0, _, _ => some zero
  | steps + 1, x, places =>
    if places ≤ greatestPower then (powerOfTen places).bind x.div
    else if x.mantissa = 0 then some x
    else ((powerOfTen greatestPower).bind x.div).bind fun y =>
      shiftDown steps y (places - greatestPower)

/-- `significand · 10 ^ exponent` as a double: the significand is rounded first, then multiplied or
divided by the double nearest to the power of ten. None if the result is too great. -/
def ofScientific (significand : Nat) (exponent : Int) : Option Binary64 :=
  (nearest significand 1).bind fun x =>
    if exponent < 0 then
      let places := (-exponent).toNat
      shiftDown (places / greatestPower + 1) x places
    else if exponent ≤ greatestPower then (powerOfTen exponent.toNat).bind x.mul
    else if x.mantissa = 0 then some x
    else none

end Binary64

end RestSpec
