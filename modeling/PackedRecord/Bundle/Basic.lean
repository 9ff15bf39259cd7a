import PackedRecord.Catalog

/-!
# Bundles

A bundle describes enums and records the way a schema file does: types and
representations are texts.  Its declarations are checked to fit together, and
then become a registry of the enums and the schemas of the records.
-/

namespace PackedRecord

structure VariantDef where
  name : String
  value : Int64
  deriving DecidableEq, Repr

structure EnumDef where
  name : String
  representation : String
  variants : List VariantDef
  deriving DecidableEq, Repr

structure FieldDef where
  name : String
  type : String
  deriving DecidableEq, Repr

structure RecordDef where
  name : String
  littleEndian : Bool := false
  bigEndian : Bool := false
  fields : List FieldDef
  deriving DecidableEq, Repr

/-- Described enums and records, with the choices for generating codecs. -/
structure Bundle where
  enums : List EnumDef := []
  records : List RecordDef := []
  options : GenerateOptions := {}
  deriving DecidableEq, Repr

namespace EnumDef

def declaration (enum : EnumDef) : Except DefinitionError EnumDecl :=
  let trimmed := Text.trim enum.representation.toList
  match Primitive.ofName? (String.ofList trimmed) with
  | some representation =>
      .ok
        { name := enum.name
          representation
          variants :=
            enum.variants.map fun variant => (variant.name, variant.value.toInt) }
  | none => .error (.unknownRepresentation enum.name enum.representation)

end EnumDef

namespace RecordDef

def schema (record : RecordDef) : Schema :=
  let declared :=
    record.fields.map fun field => (field.name, TypeRef.parse field.type)
  ((Schema.builder record.name).withFields declared).withDirectives
    { littleEndian := record.littleEndian, bigEndian := record.bigEndian }

@[simp]
theorem name_schema (record : RecordDef) : record.schema.name = record.name :=
  congrArg Schema.name (Schema.withFields_frame _ _)

end RecordDef

namespace Bundle

/-- The declared names: those of the enums, then those of the records. -/
def names (bundle : Bundle) : List String :=
  bundle.enums.map EnumDef.name ++ bundle.records.map RecordDef.name

/-- The first name that equals an earlier one or one of the given names. -/
def repeated? (seen : List String) : List String → Option String
  | [] => none
  | name :: rest =>
      if name ∈ seen then some name else repeated? (name :: seen) rest

def declareEnum (registry : Registry) (enum : EnumDef) :
    Except DefinitionError Registry := do
  let declaration ← enum.declaration
  return registry.declare (.enum declaration)

/-- The registry of the enums and the schemas of the records. -/
def parts (bundle : Bundle) :
    Except DefinitionError (Registry × List Schema) :=
  match repeated? [] bundle.names with
  | some name => .error (.duplicateType name)
  | none => do
      let registry ← bundle.enums.foldlM declareEnum .empty
      return (registry, bundle.records.map RecordDef.schema)

/-- The catalog of the records.  A record that does not compile is no failure of
the bundle. -/
def catalog (bundle : Bundle) : Except DefinitionError Catalog := do
  let (registry, schemas) ← bundle.parts
  return Catalog.compile registry schemas bundle.options

end Bundle

end PackedRecord
