import PackedRecord.TypeRef
import PackedRecord.Value

/-!
# Integer types

The integers a field can be stored as: a width in bytes and a sign.  Only widths
of one, two, four and eight bytes come from a scalar type; the arithmetic of
ranges holds for every width.  A stored integer is loaded from, and stored as, the
low bits of a word.
-/

namespace PackedRecord

/-- A stored integer: its width in bytes and whether it has a sign. -/
structure IntegerType where
  width : Nat
  signed : Bool
  deriving DecidableEq, Repr

namespace IntegerType

def byte (signed : Bool) : IntegerType :=
  { width := 1, signed }

/-- The integer type of a scalar, for the eight scalars that are stored. -/
def ofPrimitive? : Primitive → Option IntegerType
  | .u8 => some { width := 1, signed := false }
  | .i8 => some { width := 1, signed := true }
  | .u16 => some { width := 2, signed := false }
  | .i16 => some { width := 2, signed := true }
  | .u32 => some { width := 4, signed := false }
  | .i32 => some { width := 4, signed := true }
  | .u64 => some { width := 8, signed := false }
  | .i64 => some { width := 8, signed := true }
  | _ => none

/-- The name of the type in rendered source.  A width that no scalar has is
spelled as the widest unsigned scalar. -/
def spelling (type : IntegerType) : String :=
  match type.width, type.signed with
  | 1, false => "u8"
  | 1, true => "i8"
  | 2, false => "u16"
  | 2, true => "i16"
  | 4, false => "u32"
  | 4, true => "i32"
  | 8, true => "i64"
  | _, _ => "u64"

def bits (type : IntegerType) : Nat :=
  8 * type.width

def least (type : IntegerType) : Int :=
  if type.signed then -2 ^ (type.bits - 1) else 0

def greatest (type : IntegerType) : Int :=
  if type.signed then 2 ^ (type.bits - 1) - 1 else 2 ^ type.bits - 1

def Holds (type : IntegerType) (number : Int) : Prop :=
  type.least ≤ number ∧ number ≤ type.greatest

instance (type : IntegerType) (number : Int) : Decidable (type.Holds number) :=
  inferInstanceAs (Decidable (_ ∧ _))

/-- The integer whose two's complement stands in the low bits of a word: the bits
are moved to the top and back with the sign repeated. -/
def signExtend (word : UInt64) (bits : Nat) : Int64 :=
  let shift := UInt64.ofNat (64 - bits)
  (word <<< shift).toInt64 >>> shift.toInt64

/-- The integer that a loaded word stands for. -/
def number (type : IntegerType) (word : UInt64) : Int :=
  if type.signed then (signExtend word type.bits).toInt else word.toNat

def load (type : IntegerType) (word : UInt64) : Value :=
  if type.signed then
    .signed (signExtend word type.bits)
  else
    .unsigned word

/-- A loaded value holds the integer that its word stands for. -/
@[simp]
theorem integer?_load (type : IntegerType) (word : UInt64) :
    (type.load word).integer? = some (type.number word) := by
  unfold load number
  split <;> rfl

/-- The word that an integer is stored as, if it lies in the range. -/
def store? (type : IntegerType) (number : Int) : Option UInt64 :=
  if type.Holds number then some (UInt64.ofInt number) else none

end IntegerType

end PackedRecord
