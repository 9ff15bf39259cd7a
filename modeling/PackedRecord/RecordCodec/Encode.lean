import PackedRecord.RecordCodec.Basic

/-!
# Encoding records

An encode procedure is run statement by statement over a buffer.  A field's value
is checked before a byte of it is written; what earlier fields wrote stays when a
later one fails.
-/

namespace PackedRecord.RecordCodec

/-- The word that an integer is stored as in a field. -/
def checkedWord (field : String) (type : IntegerType) (number : Int) :
    Except CodecError UInt64 :=
  match type.store? number with
  | some word => .ok word
  | none => .error (.valueOutOfRange field number)

def integerWord (field : String) (type : IntegerType) (value : Value) :
    Except CodecError UInt64 :=
  match value.integer? with
  | some number => checkedWord field type number
  | none => .error (.typeMismatch field "an integer")

/-- The discriminant that a value stands for in an enum field: that of a declared
variant's name, or a declared discriminant itself. -/
def discriminant (declaration : EnumDecl) (field typeName : String)
    (value : Value) : Except CodecError Int :=
  match value.text? with
  | some variant =>
      match declaration.valueOf? variant with
      | some discriminant => .ok discriminant
      | none => .error (.typeMismatch field "a declared enum variant")
  | none =>
      match value.integer? with
      | none => .error (.typeMismatch field "an enum variant or discriminant")
      | some number =>
          if (declaration.nameOf? number).isSome then
            .ok number
          else
            .error (.invalidEnumValue typeName number)

/-- Encodes a value into a placed field, and gives the lengths reported by then. -/
def writeField (codec : RecordCodec) (lengths : List Nat)
    (field : PlacedField) (value : Value) : Writer (List Nat) :=
  let start := field.offset.sum lengths
  match field.access with
  | .integer type order => do
      let word ← Writer.ofExcept (integerWord field.name type value)
      Writer.writeWord start type.width order word
      return lengths
  | .byte signed => do
      let word ← Writer.ofExcept (integerWord field.name (.byte signed) value)
      Writer.writeWord start 1 .little word
      return lengths
  | .enum typeName underlying order => do
      let word ← Writer.ofExcept do
        let declaration ← codec.enum typeName
        let number ← discriminant declaration field.name typeName value
        checkedWord field.name underlying number
      Writer.writeWord start underlying.width order word
      return lengths
  | .composite typeName operation _ => do
      let composite ←
        Writer.ofExcept (codec.composite typeName (operation.name "encode"))
      let written ←
        Writer.encodeNested start (composite.encode operation value)
      return lengths ++ [written]

def encodeStatement (codec : RecordCodec) (record : Record)
    (lengths : List Nat) : Statement → Writer (List Nat)
  | .require size => do
      Writer.require (size.sum lengths)
      return lengths
  | .write field =>
      match record.get? field.name with
      | some value => codec.writeField lengths field value
      | none => throw (.missingField field.name)
  | .read _ => return lengths
  | .construct _ => return lengths

/-- Encodes a record at the start of a buffer and gives the count of bytes
written. -/
def encode (codec : RecordCodec) (operation : Operation) (record : Record) :
    Writer Nat := do
  let pair ← Writer.ofExcept (codec.pair operation "encode")
  let lengths ← pair.encode.body.foldlM (codec.encodeStatement record) []
  return pair.encode.returns.sum lengths

theorem writeField_keepsLength
    (codec : RecordCodec) (lengths : List Nat) (field : PlacedField)
    (value : Value) :
    (codec.writeField lengths field value).KeepsLength := by
  unfold writeField
  cases field.access with
  | integer type order =>
      exact .bind (.ofExcept _) fun _ => .bind (.writeWord _ _ _ _) fun _ =>
        .pure _
  | byte signed =>
      exact .bind (.ofExcept _) fun _ => .bind (.writeWord _ _ _ _) fun _ =>
        .pure _
  | enum typeName underlying order =>
      exact .bind (.ofExcept _) fun _ => .bind (.writeWord _ _ _ _) fun _ =>
        .pure _
  | composite typeName operation length =>
      exact .bind (.ofExcept _) fun composite =>
        .bind (.encodeNested _ (composite.encode_keepsLength operation value))
          fun _ => .pure _

theorem encodeStatement_keepsLength
    (codec : RecordCodec) (record : Record) (lengths : List Nat)
    (statement : Statement) :
    (codec.encodeStatement record lengths statement).KeepsLength := by
  cases statement with
  | require size => exact .bind (.require _) fun _ => .pure _
  | write field =>
      simp only [encodeStatement]
      cases record.get? field.name with
      | some value => exact codec.writeField_keepsLength lengths field value
      | none => exact .throw _
  | read field => exact .pure _
  | construct fields => exact .pure _

/-- Encoding a record never changes the length of the buffer. -/
theorem encode_keepsLength
    (codec : RecordCodec) (operation : Operation) (record : Record) :
    (codec.encode operation record).KeepsLength :=
  .bind (.ofExcept _) fun _ =>
    .bind
      (.foldlM
        (fun lengths statement _ =>
          codec.encodeStatement_keepsLength record lengths statement) [])
      fun _ => .pure _

end PackedRecord.RecordCodec
