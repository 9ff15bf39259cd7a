import PackedRecord.Bytes.Access
import PackedRecord.Contract
import PackedRecord.Value

/-!
# Composite types at run time

A composite decodes itself from the start of a buffer and reports how many bytes
it used, and encodes itself at the start of a buffer and reports how many bytes
it wrote.  Nothing is assumed of what it returns or reports; only the length of
the buffer it writes into stays as it was.
-/

namespace PackedRecord

/-- The runtime behaviour of a composite type. -/
structure Composite where
  contract : Contract
  /-- Decodes a value from the start of a buffer, with the count of bytes used. -/
  decode : Operation → Bytes → Except CodecError (Value × Nat)
  /-- Encodes a value at the start of a buffer and gives the count of bytes
  written. -/
  encode : Operation → Value → Writer Nat
  /-- Encoding never changes the length of the buffer. -/
  encode_keepsLength :
    ∀ operation value, (encode operation value).KeepsLength

end PackedRecord
