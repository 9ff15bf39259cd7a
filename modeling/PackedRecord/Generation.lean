import PackedRecord.Procedure
import PackedRecord.Source.Identifier

/-!
# Generation

A schema is turned into one decode/encode pair for each of its variants, or
refused with one definite cause.  The checks have a fixed order: whether the
record can be augmented, the names of the fields, the byte-order directives, and
then the fields' types in order.
-/

namespace PackedRecord

open Source

/-- The choices that apply to every schema of a run. -/
structure GenerateOptions where
  naming : Naming := {}
  deriving DecidableEq, Repr

structure Generated where
  record : String
  codecs : List CodecPair
  deriving DecidableEq, Repr

namespace Generated

/-- The contract that other records see when they nest this one. -/
def contract (generated : Generated) : Contract :=
  .ofOperations (generated.codecs.map fun codec => codec.variant.operation)

/-- The pair that an operation calls. -/
def pair? (generated : Generated) (operation : Operation) : Option CodecPair :=
  generated.codecs.find? fun codec => codec.variant.operation == operation

end Generated

namespace Schema

/-- The first field whose name is unusable, or whose local is that of an earlier
field, when the given locals are taken. -/
def misnamedField? (taken : List String) : List Field → Option Field
  | [] => none
  | field :: rest =>
      if isFieldName field.name ∧ localName field.name ∉ taken then
        misnamedField? (localName field.name :: taken) rest
      else
        some field

def checkFieldNames (schema : Schema) : Except GenerateError Unit :=
  match misnamedField? [] schema.fields with
  | some field => .error (.invalidFieldName schema.name field.name)
  | none => .ok ()

def generatePair (schema : Schema) (fields : List ClassifiedField)
    (options : GenerateOptions) (variant : Variant) :
    Except GenerateError CodecPair := do
  let layout ← Layout.plan schema.name fields variant
  return layout.emit options.naming

def generate (schema : Schema) (registry : Registry)
    (options : GenerateOptions) : Except GenerateError Generated :=
  if schema.augmentable then do
    schema.checkFieldNames
    let variants ← schema.variants
    let fields ← schema.classify registry variants
    let codecs ← variants.mapM (schema.generatePair fields options)
    return { record := schema.name, codecs }
  else
    .error (.notAugmentable schema.name)

/-- Generates the codecs of every record by itself; a failure affects only its
own entry. -/
def generateAll (schemas : List Schema) (registry : Registry)
    (options : GenerateOptions) : List (Except GenerateError Generated) :=
  schemas.map fun schema => schema.generate registry options

end Schema

end PackedRecord
