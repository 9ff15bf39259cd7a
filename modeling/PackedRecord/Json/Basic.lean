import PackedRecord.Decimal.Shortest

/-!
# JSON values

A JSON value keeps the members of an object in the order in which they stand,
repeated names included.  Its canonical form has, at every depth, the members
sorted by name and only the last of each name.  A string may hold an escaped
surrogate outside a pair: such a text is well formed, and denotes no string.
-/

namespace PackedRecord

open Text

inductive JsonNumber
  /-- A number written without point and exponent.  Minus zero is not one. -/
  | integer (value : Int)
  /-- Any other number: a sign, all digits, and the power of ten of the last. -/
  | decimal (negative : Bool) (significand : Nat) (exponent : Int)
  deriving DecidableEq, Repr

inductive Json
  | null
  | bool (value : Bool)
  | number (value : JsonNumber)
  | string (value : String)
  | array (items : List Json)
  | object (members : List (String × Json))
  /-- A string with an unpaired surrogate, or an object with such a name. -/
  | unpaired
  deriving Repr

namespace JsonNumber

/-- The least integer that is written exactly. -/
def leastInteger : Int :=
  -2 ^ 63

/-- The greatest integer that is written exactly. -/
def greatestInteger : Int :=
  2 ^ 64 - 1

def exactInteger? : JsonNumber → Option Int
  | integer value =>
      if leastInteger ≤ value ∧ value ≤ greatestInteger then
        some value
      else
        none
  | decimal _ _ _ => none

def roundedText (negative : Bool) (significand : Nat) (exponent : Int) :
    String :=
  let magnitude :=
    match Double.ofDecimal? significand exponent with
    | some double => double.shortest
    | none => .normalized significand exponent
  (if negative then "-" else "") ++ magnitude.text

/-- The text of a number.  One that is not written exactly is rounded to a
double. -/
def text : JsonNumber → String
  | integer value =>
      if leastInteger ≤ value ∧ value ≤ greatestInteger then
        signedDecimal value
      else
        roundedText (value < 0) value.natAbs 0
  | decimal negative significand exponent =>
      roundedText negative significand exponent

end JsonNumber

namespace Json

def int (value : Int) : Json :=
  .number (.integer value)

def nat (value : Nat) : Json :=
  int value

/-- The value of the first member of a name. -/
def member? (name : String) : List (String × Json) → Option Json
  | [] => none
  | (other, value) :: rest =>
      if other = name then some value else member? name rest

/-- Puts a member into a list sorted by name, unless its name is there. -/
def insertMember (name : String) (value : Json) :
    List (String × Json) → List (String × Json)
  | [] => [(name, value)]
  | (other, old) :: rest =>
      if name < other then
        (name, value) :: (other, old) :: rest
      else if name = other then
        (other, old) :: rest
      else
        (other, old) :: insertMember name value rest

mutual

/-- The value with the members of every object sorted by name, and only the last
of each name. -/
def canonical : Json → Json
  | null => null
  | bool value => bool value
  | number value => number value
  | string value => string value
  | array items => array (canonicalItems items)
  | object members => object (canonicalMembers members)
  | unpaired => unpaired

def canonicalItems : List Json → List Json
  | [] => []
  | item :: rest => item.canonical :: canonicalItems rest

def canonicalMembers : List (String × Json) → List (String × Json)
  | [] => []
  | (name, value) :: rest =>
      insertMember name value.canonical (canonicalMembers rest)

end

end Json

end PackedRecord
