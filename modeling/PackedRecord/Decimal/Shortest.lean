import PackedRecord.Decimal.Double
import PackedRecord.Text.Numeral

/-!
# Shortest decimals

A double is written with the fewest digits that round to it, and of the decimals
with that many digits with the nearest.  Decimals of moderate size are written
positionally with at least one digit on each side of the point, all others with
an exponent.
-/

namespace PackedRecord

open Text

/-- A decimal without trailing zeros: an integer times a power of ten. -/
structure Decimal where
  significand : Nat
  /-- The power of ten of the last digit. -/
  exponent : Int
  deriving DecidableEq, Repr

namespace Decimal

def normalized (significand : Nat) (exponent : Int) : Decimal :=
  if 0 < significand ∧ significand % 10 = 0 then
    normalized (significand / 10) (exponent + 1)
  else
    { significand, exponent }
termination_by significand

/-- The least power of ten of the first digit in positional notation. -/
def leastPositional : Int :=
  -5

/-- The greatest power of ten of the first digit in positional notation. -/
def greatestPositional : Int :=
  15

def zeros (count : Int) : String :=
  String.ofList (List.replicate count.toNat '0')

def text (decimal : Decimal) : String :=
  if decimal.significand = 0 then
    "0.0"
  else
    let digits := Nat.toDigits 10 decimal.significand
    let magnitude : Int := decimal.exponent + digits.length - 1
    if leastPositional ≤ magnitude ∧ magnitude ≤ greatestPositional then
      if magnitude < 0 then
        "0." ++ zeros (-magnitude - 1) ++ String.ofList digits
      else if 0 ≤ decimal.exponent then
        String.ofList digits ++ zeros decimal.exponent ++ ".0"
      else
        let whole := magnitude.toNat + 1
        String.ofList (digits.take whole) ++ "." ++
          String.ofList (digits.drop whole)
    else
      let point := if digits.length = 1 then "" else "."
      let sign := if magnitude < 0 then "-" else "+"
      String.ofList (digits.take 1) ++ point ++ String.ofList (digits.drop 1) ++
        "e" ++ sign ++ Text.decimal magnitude.natAbs

end Decimal

namespace Double

/-- The power of ten below or at a positive fraction. -/
def decimalMagnitude (numerator denominator : Nat) : Int :=
  if denominator ≤ numerator then
    (Nat.toDigits 10 (numerator / denominator)).length - 1
  else
    let power := (Nat.toDigits 10 (denominator / numerator)).length
    if denominator ≤ numerator * 10 ^ (power - 1) then
      1 - (power : Int)
    else
      -(power : Int)

/-- The decimal on the grid of a power of ten that rounds to a double, if one
does: the nearest, and the even one if two are equally near.  The distances are
counted in quarters of the double's last binary place. -/
def decimalOnGrid? (double : Double) (grid : Int) : Option Decimal :=
  let (up, down) := powerOfTwo (double.exponent - 2)
  let (gridUp, gridDown) := powerOfTen grid
  let quarters := 4 * double.significand
  let spaceBelow :=
    if double.significand = 2 ^ 52 ∧ leastExponent < double.exponent then
      1
    else
      2
  let place (number : Nat) := number * gridUp * down
  let scaled (count : Nat) := count * up * gridDown
  let reaches (number : Nat) : Bool :=
    if double.significand % 2 = 0 then
      scaled (quarters - spaceBelow) ≤ place number &&
        place number ≤ scaled (quarters + 2)
    else
      scaled (quarters - spaceBelow) < place number &&
        place number < scaled (quarters + 2)
  let below := scaled quarters / (gridUp * down)
  let above := below + 1
  let chosen :=
    match reaches below, reaches above with
    | false, false => none
    | true, false => some below
    | false, true => some above
    | true, true =>
        some (divideToEven (scaled quarters) (gridUp * down))
  chosen.map fun number => Decimal.normalized number grid

def shortest (double : Double) : Decimal :=
  if double.significand = 0 then
    { significand := 0, exponent := 0 }
  else
    let (numerator, denominator) := double.fraction
    let magnitude := decimalMagnitude numerator denominator
    let found :=
      (List.range 17).findSome? fun (further : Nat) =>
        double.decimalOnGrid? (magnitude - (further : Int))
    found.getD { significand := 0, exponent := 0 }

end Double

end PackedRecord
