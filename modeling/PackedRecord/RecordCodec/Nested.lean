import PackedRecord.RecordCodec.Decode
import PackedRecord.RecordCodec.Encode

/-!
# Records inside records

A compiled record nests inside other records like any composite: its value is
the record of its fields, and its length is the count of bytes that its codec
used or wrote.
-/

namespace PackedRecord.RecordCodec

/-- Encodes a record value; no other value can be encoded. -/
def encodeValue (codec : RecordCodec) (operation : Operation)
    (value : Value) : Writer Nat :=
  match value.record? with
  | some record => codec.encode operation record
  | none => throw (.typeMismatch codec.name "a record")

def toComposite (codec : RecordCodec) : Composite where
  contract := codec.contract
  decode operation buffer := do
    let (record, consumed) ← codec.decode operation buffer
    return (.record record, consumed)
  encode operation value := codec.encodeValue operation value
  encode_keepsLength operation value := by
    unfold encodeValue
    cases value.record? with
    | some record => exact codec.encode_keepsLength operation record
    | none => exact .throw _

end PackedRecord.RecordCodec
