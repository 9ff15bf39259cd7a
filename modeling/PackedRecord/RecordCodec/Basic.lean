import PackedRecord.Generation

/-!
# Record codecs

A record codec holds the procedures generated for a record together with the
enums and composites that its fields refer to.  Compiling fails if no procedures
can be generated, or if a composite has no runtime behaviour to bind.
-/

namespace PackedRecord

/-- The procedures of a record and the types they call on. -/
structure RecordCodec where
  generated : Generated
  types : Registry

namespace RecordCodec

def name (codec : RecordCodec) : String :=
  codec.generated.record

/-- The contract under which other records nest this one. -/
def contract (codec : RecordCodec) : Contract :=
  codec.generated.contract

def enum (codec : RecordCodec) (typeName : String) :
    Except CodecError EnumDecl :=
  match codec.types.get? typeName with
  | some (.enum declaration) => .ok declaration
  | _ => .error (.unsupportedOperation typeName "enum conversion")

/-- The composite that a field of this type calls on, for the named operation. -/
def composite (codec : RecordCodec) (typeName operationName : String) :
    Except CodecError Composite :=
  match codec.types.get? typeName with
  | some (.bound _ composite) => .ok composite
  | _ => .error (.unsupportedOperation typeName operationName)

/-- The procedures that an operation calls; its name is built from the base. -/
def pair (codec : RecordCodec) (operation : Operation) (base : String) :
    Except CodecError CodecPair :=
  match codec.generated.pair? operation with
  | some pair => .ok pair
  | none => .error (.unsupportedOperation codec.name (operation.name base))

/-- Adds the declaration that a field of the named record refers to. -/
def bindField (record : String) (registry : Registry) (types : Registry)
    (field : Field) : Except GenerateError Registry :=
  match field.type with
  | .named typeName =>
      match registry.get? typeName with
      | none => .ok types
      | some (.contractOnly _ _) =>
          .error (.unboundComposite record field.name typeName)
      | some declaration => .ok (types.declare declaration)
  | _ => .ok types

def compile (schema : Schema) (registry : Registry)
    (options : GenerateOptions) : Except GenerateError RecordCodec := do
  let generated ← schema.generate registry options
  let types ← schema.fields.foldlM (bindField schema.name registry) .empty
  return { generated, types }

end RecordCodec

end PackedRecord
