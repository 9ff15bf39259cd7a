import PackedRecord.Bundle.Basic
import PackedRecord.Json.Printer
import PackedRecord.Source.Render

/-!
# Plain exchange

Records are exchanged as plain JSON objects and bytes as lists, without the
shapes of values: an enum variant becomes a string, bytes become an array of
numbers.  Coming back, a string is text and a number that has no sign is
unsigned; encoding accepts these in place of what they came from.
-/

namespace PackedRecord

namespace Exchange

/-- Why an exchange fails. -/
inductive Error
  | unknownRecord (name : String)
  | unknownOrder (text : String)
  | notInteger (number : JsonNumber)
  | notBytes
  | unsupported (value : Json)
  /-- A buffer is asked for that no allocation gives. -/
  | capacityOverflow
  | codec (cause : CodecError)

namespace Error

def message : Error → String
  | unknownRecord name => s!"unknown record `{name}`"
  | unknownOrder text => s!"unknown byte order `{text}`"
  | notInteger number => s!"`{number.text}` is not an integer"
  | notBytes => "byte arrays must hold values 0..=255"
  | unsupported value => s!"unsupported value `{value.compact}`"
  | capacityOverflow => "capacity overflow"
  | codec cause => cause.message

end Error

/-- The operation that a text asks for: none or an empty one for the unsuffixed
pair, or the name of an order. -/
def operation : Option String → Except Error Operation
  | none => .ok .generic
  | some "" => .ok .generic
  | some "little" => .ok (.ordered .little)
  | some "big" => .ok (.ordered .big)
  | some other => .error (.unknownOrder other)

mutual

def toJson : Value → Json
  | .unsigned word => .nat word.toNat
  | .signed word => .int word.toInt
  | .variant name => .string name
  | .text content => .string content
  | .bytes content => .array (content.map fun byte => .nat byte.toNat)
  | .record entries => .object (toMembers entries)

def toMembers : List (String × Value) → List (String × Json)
  | [] => []
  | (name, value) :: rest => (name, toJson value) :: toMembers rest

end

def byte? : Json → Option UInt8
  | .number (.integer value) =>
      if 0 ≤ value ∧ value ≤ 255 then
        some (UInt8.ofNat value.toNat)
      else
        none
  | _ => none

/-- The value of an integer: signed only if it is negative. -/
def integerValue (number : Int) : Value :=
  if 0 ≤ number then
    .unsigned (UInt64.ofInt number)
  else
    .signed (Int64.ofInt number)

mutual

def ofJson : Json → Except Error Value
  | .number number =>
      match number.exactInteger? with
      | some integer => .ok (integerValue integer)
      | none => .error (.notInteger number)
  | .string content => .ok (.text content)
  | .array items =>
      match items.mapM byte? with
      | some content => .ok (.bytes content)
      | none => .error .notBytes
  | .object members => do
      return .record (← ofMembers members)
  | .null => .error (.unsupported .null)
  | .bool value => .error (.unsupported (.bool value))
  | .unpaired => .error (.unsupported .unpaired)

/-- The entries that the members of an object stand for; the first member that
stands for none gives the error. -/
def ofMembers : List (String × Json) → Except Error (List (String × Value))
  | [] => .ok []
  | (name, json) :: rest => do
      let value ← ofJson json
      return (name, value) :: (← ofMembers rest)

end

def codec (catalog : Catalog) (record : String) : Except Error RecordCodec :=
  match catalog.codec? record with
  | some codec => .ok codec
  | none => .error (.unknownRecord record)

/-- Decodes bytes into a plain JSON object, with the count of bytes used. -/
def decode (catalog : Catalog) (record : String) (order : Option String)
    (bytes : Bytes) : Except Error (Json × Nat) := do
  let codec ← codec catalog record
  let operation ← operation order
  match codec.decode operation bytes with
  | .ok (decoded, consumed) => return (.object (toMembers decoded), consumed)
  | .error cause => throw (.codec cause)

/-- The size of the buffer that a record is encoded into: what its first pair
needs at least, and some more for composites, as a machine with words of `bits` bits
adds them up. -/
def bufferSize (codec : RecordCodec) (extra : Nat) (bits : Nat := 64) : Nat :=
  wrappingAdd bits
    ((codec.generated.codecs.head?.map CodecPair.staticSize).getD 0) extra

/-- A buffer of zeros.  An allocation has no more bytes than a signed word counts. -/
def zeros (size : Nat) (bits : Nat := 64) : Except Error Bytes :=
  if size < 2 ^ (bits - 1) then
    .ok (List.replicate size 0)
  else
    .error .capacityOverflow

/-- Encodes the members of a plain JSON object and gives the bytes written. -/
def encode (catalog : Catalog) (record : String) (order : Option String)
    (members : List (String × Json)) (extra : Nat) (bits : Nat := 64) :
    Except Error Bytes := do
  let codec ← codec catalog record
  let operation ← operation order
  let entries ← ofMembers members
  let buffer ← zeros (bufferSize codec extra bits) bits
  match codec.encode operation entries buffer with
  | .ok written buffer => return buffer.take written
  | .error cause _ => throw (.codec cause)

def render (catalog : Catalog) (record : String) : Except Error String := do
  let codec ← codec catalog record
  return Source.render {} codec.generated

end Exchange

end PackedRecord
