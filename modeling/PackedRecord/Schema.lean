import PackedRecord.ByteOrder
import PackedRecord.Error
import PackedRecord.TypeRef

/-!
# Record schemas

A schema describes one record: its fields in order, its byte-order directives,
and whether it can receive generated members.  The directives decide which
variants the record gets.

A schema is built step by step.  Each field is numbered as it is added, by the count
of the fields before it.
-/

namespace PackedRecord

structure Field where
  name : String
  type : TypeRef
  /-- The place of the field in its schema, counted from zero. -/
  ordinal : Nat := 0
  deriving DecidableEq, Repr

structure Directives where
  littleEndian : Bool := false
  bigEndian : Bool := false
  deriving DecidableEq, Repr

structure Schema where
  name : String
  fields : List Field
  directives : Directives := {}
  augmentable : Bool := true
  deriving DecidableEq, Repr

namespace Schema

def builder (name : String) : Schema :=
  { name, fields := [] }

def field (schema : Schema) (name : String) (type : TypeRef) : Schema :=
  { schema with
    fields := schema.fields ++ [{ name, type, ordinal := schema.fields.length }] }

def withFields (schema : Schema) (declared : List (String × TypeRef)) : Schema :=
  declared.foldl (fun schema (name, type) => schema.field name type) schema

def withDirectives (schema : Schema) (directives : Directives) : Schema :=
  { schema with directives }

def withAugmentable (schema : Schema) (augmentable : Bool) : Schema :=
  { schema with augmentable }

def numberedFields (schema : Schema) : List (Nat × Field) :=
  schema.fields.map fun field => (field.ordinal, field)

/-- The variants of a record.  One directive gives a single unsuffixed variant,
none gives a suffixed one for each order, and both contradict each other. -/
def variants (schema : Schema) : Except GenerateError (List Variant) :=
  match schema.directives.littleEndian, schema.directives.bigEndian with
  | true, true => .error (.ambiguousOrder schema.name)
  | true, false => .ok [{ order := .little, suffixed := false }]
  | false, true => .ok [{ order := .big, suffixed := false }]
  | false, false =>
      .ok
        [{ order := .little, suffixed := true },
          { order := .big, suffixed := true }]

/-- The fields are numbered in order, from zero on. -/
def Numbered (schema : Schema) : Prop :=
  schema.fields.map Field.ordinal = List.range schema.fields.length

theorem numbered_builder (name : String) : (builder name).Numbered :=
  rfl

theorem Numbered.field
    {schema : Schema} (numbered : schema.Numbered) (name : String)
    (type : TypeRef) :
    (schema.field name type).Numbered := by
  rw [Numbered, Schema.field, List.map_append, numbered, List.length_append,
    List.length_singleton, List.range_succ]
  rfl

section WithFields

variable (schema : Schema) (declared : List (String × TypeRef))

@[simp]
theorem withFields_nil : schema.withFields [] = schema :=
  rfl

@[simp]
theorem withFields_cons (name : String) (type : TypeRef) :
    schema.withFields ((name, type) :: declared) =
      (schema.field name type).withFields declared :=
  rfl

/-- However many fields are added, all are numbered. -/
theorem Numbered.withFields
    {schema : Schema} (numbered : schema.Numbered) :
    (schema.withFields declared).Numbered := by
  induction declared generalizing schema with
  | nil => exact numbered
  | cons first rest inductionHypothesis =>
      exact inductionHypothesis (numbered.field first.1 first.2)

/-- Adding fields changes nothing else. -/
theorem withFields_frame :
    schema.withFields declared =
      { schema with fields := (schema.withFields declared).fields } := by
  induction declared generalizing schema with
  | nil => rfl
  | cons first rest inductionHypothesis =>
      exact inductionHypothesis (schema.field first.1 first.2)

theorem declared_withFields :
    (schema.withFields declared).fields.map
        (fun field => (field.name, field.type)) =
      schema.fields.map (fun field => (field.name, field.type)) ++ declared := by
  induction declared generalizing schema with
  | nil => simp
  | cons first rest inductionHypothesis =>
      rw [withFields_cons, inductionHypothesis, Schema.field, List.map_append,
        List.append_assoc]
      rfl

end WithFields

end Schema

end PackedRecord
