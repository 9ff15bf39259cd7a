import PackedRecord.Bytes.Access
import PackedRecord.IntegerType

/-!
# Typed words

Machine integers of one, two, four and eight bytes are read and written as
themselves.  A word is narrowed to such an integer by dropping its high bits; an
integer is widened to a word by repeating its sign.
-/

namespace PackedRecord

/-- The machine integers that a field can be stored as. -/
class FixedWidth (integer : Type) where
  type : IntegerType
  ofWord : UInt64 → integer
  toWord : integer → UInt64
  toInt : integer → Int

instance : FixedWidth UInt8 where
  type := { width := 1, signed := false }
  ofWord word := word.toUInt8
  toWord integer := integer.toUInt64
  toInt integer := integer.toNat

instance : FixedWidth Int8 where
  type := { width := 1, signed := true }
  ofWord word := word.toUInt8.toInt8
  toWord integer := integer.toInt64.toUInt64
  toInt integer := integer.toInt

instance : FixedWidth UInt16 where
  type := { width := 2, signed := false }
  ofWord word := word.toUInt16
  toWord integer := integer.toUInt64
  toInt integer := integer.toNat

instance : FixedWidth Int16 where
  type := { width := 2, signed := true }
  ofWord word := word.toUInt16.toInt16
  toWord integer := integer.toInt64.toUInt64
  toInt integer := integer.toInt

instance : FixedWidth UInt32 where
  type := { width := 4, signed := false }
  ofWord word := word.toUInt32
  toWord integer := integer.toUInt64
  toInt integer := integer.toNat

instance : FixedWidth Int32 where
  type := { width := 4, signed := true }
  ofWord word := word.toUInt32.toInt32
  toWord integer := integer.toInt64.toUInt64
  toInt integer := integer.toInt

instance : FixedWidth UInt64 where
  type := { width := 8, signed := false }
  ofWord word := word
  toWord integer := integer
  toInt integer := integer.toNat

instance : FixedWidth Int64 where
  type := { width := 8, signed := true }
  ofWord word := word.toInt64
  toWord integer := integer.toUInt64
  toInt integer := integer.toInt

namespace FixedWidth

variable {integer : Type} [FixedWidth integer]

def read (integer : Type) [FixedWidth integer]
    (buffer : Bytes) (offset : Nat) (order : ByteOrder) :
    Except CodecError integer := do
  return ofWord (← buffer.readWord offset (type integer).width order)

def write (offset : Nat) (order : ByteOrder) (value : integer) : Writer Unit :=
  Writer.writeWord offset (type integer).width order (toWord value)

def readEnum {enum : Type} (convert : integer → Option enum)
    (buffer : Bytes) (offset : Nat) (order : ByteOrder) (typeName : String) :
    Except CodecError enum := do
  let value ← read integer buffer offset order
  match convert value with
  | some converted => return converted
  | none => throw (.invalidEnumValue typeName (toInt value))

end FixedWidth

end PackedRecord
