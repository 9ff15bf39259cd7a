import PackedRecord.RecordCodec.Basic

/-!
# Decoding records

A decode procedure is run statement by statement.  The state holds the lengths
reported so far, by which later offsets are computed, the decoded locals, and the
record once it is built.
-/

namespace PackedRecord.RecordCodec

/-- What a run of a decode procedure has found so far. -/
structure DecodeState where
  /-- The lengths reported by composites, in order. -/
  lengths : List Nat := []
  /-- The decoded fields that are not yet in a record. -/
  locals : Record := []
  record : Record := []

/-- The variant that the low bits of a word stand for. -/
def loadVariant (declaration : EnumDecl) (underlying : IntegerType)
    (typeName : String) (word : UInt64) : Except CodecError Value :=
  let discriminant := underlying.number word
  match declaration.nameOf? discriminant with
  | some variant => .ok (.variant variant)
  | none => .error (.invalidEnumValue typeName discriminant)

/-- Decodes a placed field, and gives its value with the lengths reported by then. -/
def readField (codec : RecordCodec) (buffer : Bytes) (lengths : List Nat)
    (field : PlacedField) : Except CodecError (Value × List Nat) :=
  let start := field.offset.sum lengths
  match field.access with
  | .integer type order => do
      let word ← buffer.readWord start type.width order
      return (type.load word, lengths)
  | .byte signed => do
      let word ← buffer.readWord start 1 .little
      return ((IntegerType.byte signed).load word, lengths)
  | .enum typeName underlying order => do
      let word ← buffer.readWord start underlying.width order
      let declaration ← codec.enum typeName
      let value ← loadVariant declaration underlying typeName word
      return (value, lengths)
  | .composite typeName operation _ => do
      let composite ← codec.composite typeName (operation.name "decode")
      let (value, consumed) ←
        buffer.decodeNested start (composite.decode operation)
      return (value, lengths ++ [consumed])

def decodeStatement (codec : RecordCodec) (buffer : Bytes)
    (state : DecodeState) : Statement → Except CodecError DecodeState
  | .require size => do
      Bytes.require buffer.length (size.sum state.lengths)
      return state
  | .read field => do
      let (value, lengths) ← codec.readField buffer state.lengths field
      let locals := state.locals ++ [(field.name, value)]
      return { state with lengths, locals }
  | .construct _ => .ok { state with locals := [], record := state.locals }
  | .write _ => .ok state

/-- Decodes a record from the start of a buffer, with the count of bytes used. -/
def decode (codec : RecordCodec) (operation : Operation) (buffer : Bytes) :
    Except CodecError (Record × Nat) := do
  let pair ← codec.pair operation "decode"
  let state ← pair.decode.body.foldlM (codec.decodeStatement buffer) {}
  return (state.record, pair.decode.returns.sum state.lengths)

end PackedRecord.RecordCodec
