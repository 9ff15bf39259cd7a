import PackedRecord.Text.Numeral

/-!
# Errors

Three kinds of failure are kept apart: a schema for which no codec can be
generated, a run of a codec that fails, and a bundle whose declarations do not
fit together.  Each is a cause with its data; the wording stands in one function
for each kind.
-/

namespace PackedRecord

open Text

/-- Why no codec is generated for a record. -/
inductive GenerateError
  | notAugmentable (record : String)
  | ambiguousOrder (record : String)
  | unsupportedType (record field type : String)
  /-- The field's type is unknown, or a composite without a usable operation. -/
  | missingContract (record field type : String)
  /-- The field's name is no identifier, or clashes with an earlier field. -/
  | invalidFieldName (record field : String)
  /-- The composite is declared, and nothing is registered to run it. -/
  | unboundComposite (record field type : String)
  deriving DecidableEq, Repr

namespace GenerateError

def record : GenerateError → String
  | notAugmentable record => record
  | ambiguousOrder record => record
  | unsupportedType record _ _ => record
  | missingContract record _ _ => record
  | invalidFieldName record _ => record
  | unboundComposite record _ _ => record

def message : GenerateError → String
  | notAugmentable record =>
      s!"record `{record}` cannot be augmented with generated codecs"
  | ambiguousOrder record =>
      s!"record `{record}` declares both little-endian and big-endian byte order"
  | unsupportedType record field type =>
      s!"field `{record}.{field}` has unsupported type `{type}`"
  | missingContract record field type =>
      s!"field `{record}.{field}`: type `{type}` offers no usable decode/encode pair"
  | invalidFieldName record field =>
      s!"record `{record}` has an invalid or clashing field name `{field}`"
  | unboundComposite record field type =>
      s!"field `{record}.{field}`: no runtime codec bound for composite `{type}`"

end GenerateError

/-- Why a run of a codec fails. -/
inductive CodecError
  | bufferTooSmall (needed available : Nat)
  | invalidLength (offset reported available : Nat)
  | invalidEnumValue (type : String) (value : Int)
  | missingField (field : String)
  | typeMismatch (field expected : String)
  | valueOutOfRange (field : String) (value : Int)
  | unsupportedOperation (record operation : String)
  deriving DecidableEq, Repr

namespace CodecError

def message : CodecError → String
  | bufferTooSmall needed available =>
      s!"buffer too small: need {decimal needed} bytes, have {decimal available}"
  | invalidLength offset reported available =>
      s!"nested codec at offset {decimal offset} reported {decimal reported} bytes, only {decimal available} available"
  | invalidEnumValue type value =>
      s!"value {signedDecimal value} is not a variant of `{type}`"
  | missingField field =>
      s!"missing field `{field}`"
  | typeMismatch field expected =>
      s!"field `{field}` expects {expected}"
  | valueOutOfRange field value =>
      s!"value {signedDecimal value} does not fit field `{field}`"
  | unsupportedOperation record operation =>
      s!"record `{record}` has no `{operation}` operation"

end CodecError

/-- Why the declarations of a bundle do not fit together. -/
inductive DefinitionError
  | unknownRepresentation (name representation : String)
  | duplicateType (name : String)
  deriving DecidableEq, Repr

namespace DefinitionError

def message : DefinitionError → String
  | unknownRepresentation name representation =>
      s!"enum `{name}` has unknown representation `{representation}`"
  | duplicateType name =>
      s!"type `{name}` is declared more than once"

end DefinitionError

end PackedRecord
