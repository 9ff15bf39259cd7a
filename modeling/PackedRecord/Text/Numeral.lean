import PackedRecord.Arithmetic

/-!
# Decimal numerals

Numbers are written with the fewest ASCII digits.  A word numeral is read back
with more freedom: one plus sign and any number of leading zeros are allowed, but
the number has to fit 64 bits.
-/

namespace PackedRecord.Text

def decimal (number : Nat) : String :=
  number.repr

/-- The decimal text of an integer; a minus sign stands before the digits of a
negative one. -/
def signedDecimal : Int → String
  | .ofNat number => decimal number
  | .negSucc predecessor => "-" ++ decimal (predecessor + 1)

/-- The number that a nonempty sequence of ASCII digits denotes. -/
def digits? (text : List Char) : Option Nat :=
  if text ≠ [] ∧ text.all Char.isDigit then
    some (Nat.ofDigitChars 10 text 0)
  else
    none

/-- The number below `2 ^ 64` that a word numeral denotes. -/
def word? (text : List Char) : Option Nat :=
  let magnitude :=
    match text with
    | '+' :: digits => digits
    | digits => digits
  (digits? magnitude).filter (· < 2 ^ 64)

/-- Digits read back as the number they were written for. -/
@[simp]
theorem digits?_toDigits (number : Nat) :
    digits? (Nat.toDigits 10 number) = some number := by
  have allDigits : ∀ character ∈ Nat.toDigits 10 number,
      character.isDigit = true :=
    fun _ member => Nat.isDigit_of_mem_toDigits (by decide) (by decide) member
  simpa [digits?, Nat.toDigits_ne_nil, Nat.ofDigitChars_ten_toDigits] using
    allDigits

@[simp]
theorem toList_decimal (number : Nat) :
    (decimal number).toList = Nat.toDigits 10 number :=
  Nat.toList_repr

end PackedRecord.Text
