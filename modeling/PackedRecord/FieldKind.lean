import PackedRecord.IntegerType
import PackedRecord.Registry
import PackedRecord.Schema

/-!
# Kinds of fields

Classification decides what a declared type means for the layout: an integer
whose bytes have an order, a single byte, an enum stored as an integer, or a
composite that is as wide as it reports.  A composite is accepted only if it
serves every variant that the record gets.
-/

namespace PackedRecord

/-- What a field's type means for the layout. -/
inductive FieldKind
  | integer (type : IntegerType)
  /-- A single byte, to which no order applies. -/
  | byte (signed : Bool)
  | enum (name : String) (underlying : IntegerType)
  | composite (name : String) (contract : Contract)
  deriving DecidableEq, Repr

namespace FieldKind

/-- The width in bytes, where it is known without data. -/
def staticWidth? : FieldKind → Option Nat
  | integer type => some type.width
  | byte _ => some 1
  | enum _ underlying => some underlying.width
  | composite _ _ => none

end FieldKind

structure ClassifiedField where
  name : String
  kind : FieldKind
  deriving DecidableEq, Repr

namespace Field

/-- Classifies a field of the named record for the record's variants. -/
def classify (field : Field) (record : String) (registry : Registry)
    (variants : List Variant) : Except GenerateError FieldKind :=
  let unsupported :=
    GenerateError.unsupportedType record field.name field.type.text
  match field.type with
  | .array _ _ => .error unsupported
  | .primitive scalar =>
      match IntegerType.ofPrimitive? scalar with
      | none => .error unsupported
      | some type =>
          if type.width = 1 then
            .ok (.byte type.signed)
          else
            .ok (.integer type)
  | .named name =>
      let missing := GenerateError.missingContract record field.name name
      let accept (contract : Contract) : Except GenerateError FieldKind :=
        if contract.serves variants then
          .ok (.composite name contract)
        else
          .error missing
      match registry.get? name with
      | some (.enum declaration) =>
          match IntegerType.ofPrimitive? declaration.representation with
          | none => .error unsupported
          | some underlying => .ok (.enum name underlying)
      | some (.contractOnly _ contract) => accept contract
      | some (.bound _ composite) => accept composite.contract
      | none => .error missing

end Field

namespace Schema

/-- Classifies every field in order; the first failure is the result. -/
def classify (schema : Schema) (registry : Registry)
    (variants : List Variant) : Except GenerateError (List ClassifiedField) :=
  schema.fields.mapM fun field => do
    let kind ← field.classify schema.name registry variants
    return { name := field.name, kind }

end Schema

end PackedRecord
