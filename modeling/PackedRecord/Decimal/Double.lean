import PackedRecord.Arithmetic

/-!
# Doubles from decimals

A positive double is a significand below `2 ^ 53` times a power of two.  A
fraction is rounded to the nearest double, a tie to the even significand.  A
decimal is rounded in two steps: its leading digits, as many as fit 64 bits, make
a double, which is then multiplied or divided by a power of ten, itself a double.
-/

namespace PackedRecord

/-- A nonnegative finite double. -/
structure Double where
  /-- The significand, below `2 ^ 53`. -/
  significand : Nat
  /-- The power of two, at least `-1074`. -/
  exponent : Int
  deriving DecidableEq, Repr

namespace Double

/-- The quotient rounded to the nearest number, a tie to the even one. -/
def divideToEven (numerator denominator : Nat) : Nat :=
  let quotient := numerator / denominator
  let twice := 2 * (numerator % denominator)
  if twice < denominator then
    quotient
  else if denominator < twice then
    quotient + 1
  else
    quotient + quotient % 2

/-- The factors by which a power of two multiplies and divides. -/
def powerOfTwo (exponent : Int) : Nat × Nat :=
  (2 ^ exponent.toNat, 2 ^ (-exponent).toNat)

/-- The factors by which a power of ten multiplies and divides. -/
def powerOfTen (exponent : Int) : Nat × Nat :=
  (10 ^ exponent.toNat, 10 ^ (-exponent).toNat)

def leastExponent : Int :=
  -1074

def greatestExponent : Int :=
  971

def zero : Double :=
  { significand := 0, exponent := leastExponent }

/-- The power of two below or at a positive fraction. -/
def binaryMagnitude (numerator denominator : Nat) : Int :=
  let estimate : Int := (numerator.log2 : Int) - denominator.log2
  let (up, down) := powerOfTwo estimate
  if numerator * down < denominator * up then estimate - 1 else estimate

/-- The double nearest to a fraction, unless it is beyond the greatest one. -/
def round? (numerator denominator : Nat) : Option Double :=
  if numerator = 0 then
    some zero
  else
    let exponent :=
      max leastExponent (binaryMagnitude numerator denominator - 52)
    let (up, down) := powerOfTwo exponent
    let rounded := divideToEven (numerator * down) (denominator * up)
    let double : Double :=
      if rounded = 2 ^ 53 then
        { significand := 2 ^ 52, exponent := exponent + 1 }
      else
        { significand := rounded, exponent }
    if double.exponent ≤ greatestExponent then some double else none

def fraction (double : Double) : Nat × Nat :=
  let (up, down) := powerOfTwo double.exponent
  (double.significand * up, down)

def multiply? (left right : Double) : Option Double :=
  let (leftNumerator, leftDenominator) := left.fraction
  let (rightNumerator, rightDenominator) := right.fraction
  round? (leftNumerator * rightNumerator) (leftDenominator * rightDenominator)

def divide? (left right : Double) : Option Double :=
  let (leftNumerator, leftDenominator) := left.fraction
  let (rightNumerator, rightDenominator) := right.fraction
  round? (leftNumerator * rightDenominator) (leftDenominator * rightNumerator)

def greatestPowerOfTen : Nat :=
  308

/-- A double divided by a power of ten: by the greatest power of ten again and
again, until the rest is one. -/
def divideByPowerOfTen? (double : Double) (power : Nat) : Option Double :=
  if double.significand = 0 then
    some zero
  else if greatestPowerOfTen < power then do
    let reduced ← double.divide? (← round? (10 ^ greatestPowerOfTen) 1)
    divideByPowerOfTen? reduced (power - greatestPowerOfTen)
  else do
    double.divide? (← round? (10 ^ power) 1)
termination_by power
decreasing_by
  simp only [greatestPowerOfTen] at *
  omega

def multiplyByPowerOfTen? (double : Double) (power : Nat) : Option Double :=
  if power ≤ greatestPowerOfTen then do
    double.multiply? (← round? (10 ^ power) 1)
  else if double.significand = 0 then
    some zero
  else
    none

/-- The leading digits of a number that fit 64 bits, with the count of digits
that are left out. -/
def leadingWord (number : Nat) : Nat × Nat :=
  if number < 2 ^ 64 then
    (number, 0)
  else
    let (word, dropped) := leadingWord (number / 10)
    (word, dropped + 1)
termination_by number

/-- The double of a decimal, unless it is beyond the greatest one. -/
def ofDecimal? (significand : Nat) (exponent : Int) : Option Double := do
  let (word, dropped) := leadingWord significand
  let double ← round? word 1
  let power := exponent + dropped
  if 0 ≤ power then
    double.multiplyByPowerOfTen? power.toNat
  else
    double.divideByPowerOfTen? (-power).toNat

end Double

end PackedRecord
