import PackedRecord.Proofs.ComponentLaw

/-!
# The shape of a record

A record of a catalog holds integers in the end: those of its own fields and those
of the records nested inside it.  Its shape writes the nested records out, so that
sizes and places can be read off it without running a codec.

A shape is tied to a compiled record by `Shape.Of`, which follows the names of field
types through the registries that the records were compiled against.  The proofs
about runs use `StoredField.Expands` instead: there a nested record has become a
codec that runs like the cursor over its own stored fields.
-/

namespace PackedRecord

/-- An integer of a record: the nested fields that lead to it, its own field, and
how it is stored.  An enum is stored as an integer that it declares. -/
structure Leaf where
  inside : List String
  field : String
  order : ByteOrder
  type : IntegerType
  enum? : Option EnumDecl
  deriving DecidableEq, Repr

namespace Leaf

/-- The leaf as it is seen from outside of a nested field. -/
def within (field : String) (leaf : Leaf) : Leaf :=
  { leaf with inside := field :: leaf.inside }

def width (leaf : Leaf) : Nat :=
  leaf.type.width

def widths (leaves : List Leaf) : Nat :=
  (leaves.map width).sum

@[simp]
theorem widths_nil : widths [] = 0 :=
  rfl

@[simp]
theorem widths_cons (leaf : Leaf) (rest : List Leaf) :
    widths (leaf :: rest) = leaf.width + widths rest := by
  simp [widths]

@[simp]
theorem widths_append (first second : List Leaf) :
    widths (first ++ second) = widths first + widths second := by
  simp [widths]

@[simp]
theorem widths_map_within (field : String) (leaves : List Leaf) :
    widths (leaves.map (within field)) = widths leaves := by
  induction leaves with
  | nil => simp
  | cons leaf rest inductionHypothesis =>
      rw [List.map_cons, widths_cons, widths_cons, inductionHypothesis]
      simp [within, width]

end Leaf

/-- The fields of a record in order, with the records nested among them. -/
inductive Shape
  | done
  | leaf (field : String) (type : IntegerType) (enum? : Option EnumDecl)
      (rest : Shape)
  /-- A nested record, with its name and the order that its directive sets. -/
  | nested (field record : String) (order? : Option ByteOrder)
      (inner rest : Shape)
  deriving DecidableEq, Repr

namespace Shape

/-- The room of the fields that are no records. -/
def staticSize : Shape → Nat
  | done => 0
  | leaf _ type _ rest => type.width + rest.staticSize
  | nested _ _ _ _ rest => rest.staticSize

/-- The records nested in the fields, one for each such field. -/
def records : Shape → List Shape
  | done => []
  | leaf _ _ _ rest => rest.records
  | nested _ _ _ inner rest => inner :: rest.records

def size : Shape → Nat
  | done => 0
  | leaf _ type _ rest => type.width + rest.size
  | nested _ _ _ inner rest => inner.size + rest.size

def fields : Shape → List String
  | done => []
  | leaf field _ _ rest => field :: rest.fields
  | nested field _ _ _ rest => field :: rest.fields

/-- No record nested in the shape, however deep, has two fields of one name. -/
def Distinct : Shape → Prop
  | done => True
  | leaf _ _ _ rest => rest.Distinct
  | nested _ _ _ inner rest =>
      (inner.fields.Nodup ∧ inner.Distinct) ∧ rest.Distinct

/-- The integers of a record that is stored in the given order.  A nested record
without a directive takes over the order of the record around it. -/
def leaves (order : ByteOrder) : Shape → List Leaf
  | done => []
  | leaf field type enum? rest =>
      { inside := [], field, order, type, enum? } :: rest.leaves order
  | nested field _ order? inner rest =>
      (inner.leaves (order?.getD order)).map (Leaf.within field) ++
        rest.leaves order

private theorem size_eq_staticSize_add (shape : Shape) :
    shape.size = shape.staticSize + (shape.records.map size).sum := by
  induction shape with
  | done => simp [size, staticSize, records]
  | leaf field type enum? rest restHypothesis =>
      rw [size, staticSize, records, restHypothesis]
      omega
  | nested field record order? inner rest innerHypothesis restHypothesis =>
      rw [size, staticSize, records, restHypothesis, List.map_cons,
        List.sum_cons]
      omega

theorem staticSize_le_size (shape : Shape) : shape.staticSize ≤ shape.size := by
  have split := shape.size_eq_staticSize_add
  omega

theorem widths_leaves (shape : Shape) (order : ByteOrder) :
    Leaf.widths (shape.leaves order) = shape.size := by
  induction shape generalizing order with
  | done => simp [leaves, size]
  | leaf field type enum? rest restHypothesis =>
      rw [leaves, size, Leaf.widths_cons, restHypothesis]
      simp [Leaf.width]
  | nested field record order? inner rest innerHypothesis restHypothesis =>
      rw [leaves, size, Leaf.widths_append, Leaf.widths_map_within,
        innerHypothesis, restHypothesis]

end Shape

/-! ## The shape of compiled records -/

def Schema.order? (schema : Schema) : Option ByteOrder :=
  match schema.directives.littleEndian, schema.directives.bigEndian with
  | true, false => some .little
  | false, true => some .big
  | _, _ => none

/-- Fields have a shape by what a registry answers for the names of their types: a
name stands for an enum, or for a record that was compiled before. -/
inductive Shape.Of : Registry → List Field → Shape → Prop
  | done (registry : Registry) : Of registry [] .done
  | integer {registry : Registry} {fields : List Field} {shape : Shape}
      {scalar : Primitive} {type : IntegerType} {ordinal : Nat} (name : String)
      (stored : IntegerType.ofPrimitive? scalar = some type)
      (rest : Of registry fields shape) :
      Of registry ({ name, type := .primitive scalar, ordinal } :: fields)
        (.leaf name type none shape)
  | enum {registry : Registry} {fields : List Field} {shape : Shape}
      {typeName : String} {declaration : EnumDecl} {underlying : IntegerType}
      {ordinal : Nat} (name : String)
      (answer : registry.get? typeName = some (.enum declaration))
      (stored :
        IntegerType.ofPrimitive? declaration.representation = some underlying)
      (rest : Of registry fields shape) :
      Of registry ({ name, type := .named typeName, ordinal } :: fields)
        (.leaf name underlying (some declaration) shape)
  | nested {registry earlier : Registry} {fields : List Field}
      {innerShape shape : Shape} {typeName declared : String}
      {codec : RecordCodec} {schema : Schema} {options : GenerateOptions}
      {ordinal : Nat} (name : String)
      (answer :
        registry.get? typeName = some (.bound declared codec.toComposite))
      (compiled : RecordCodec.compile schema earlier options = .ok codec)
      (inner : Of earlier schema.fields innerShape)
      (rest : Of registry fields shape) :
      Of registry ({ name, type := .named typeName, ordinal } :: fields)
        (.nested name schema.name schema.order? innerShape shape)

theorem Shape.Of.fields_eq
    {registry : Registry} {fields : List Field} {shape : Shape}
    (shaped : Of registry fields shape) :
    shape.fields = fields.map Field.name := by
  induction shaped with
  | done => rfl
  | integer name stored rest inductionHypothesis =>
      rw [Shape.fields, List.map_cons, inductionHypothesis]
  | enum name answer stored rest inductionHypothesis =>
      rw [Shape.fields, List.map_cons, inductionHypothesis]
  | nested name answer compiled inner rest _ inductionHypothesis =>
      rw [Shape.fields, List.map_cons, inductionHypothesis]

/-- What is nested was compiled, which no record with a repeated name is. -/
theorem Shape.Of.distinct
    {registry : Registry} {fields : List Field} {shape : Shape}
    (shaped : Of registry fields shape) :
    shape.Distinct := by
  induction shaped with
  | done => trivial
  | integer name stored rest inductionHypothesis => exact inductionHypothesis
  | enum name answer stored rest inductionHypothesis => exact inductionHypothesis
  | nested name answer compiled inner rest innerHypothesis restHypothesis =>
      have nodup := RecordCodec.nodup_names_of_compile compiled
      rw [← inner.fields_eq] at nodup
      exact ⟨⟨nodup, innerHypothesis⟩, restHypothesis⟩

/-- A codec was compiled from fields of the shape. -/
inductive RecordCodec.HasShape : RecordCodec → Shape → Prop
  | intro {codec : RecordCodec} {shape : Shape} {schema : Schema}
      {registry : Registry} {options : GenerateOptions}
      (compiled : compile schema registry options = .ok codec)
      (shaped : Shape.Of registry schema.fields shape) :
      HasShape codec shape

/-! ## Operations of nested records -/

namespace RecordCodec

section Compiled

variable {schema : Schema} {registry : Registry} {options : GenerateOptions}
  {codec : RecordCodec} {operation : Operation} {variant : Variant}

theorem offers_iff_exists_variant :
    codec.contract.offers operation = true ↔
      ∃ variant, codec.variant? operation = some variant := by
  rw [contract, Generated.contract, Contract.offers_ofOperations,
    List.contains_iff_mem, List.mem_map]
  constructor
  · intro offered
    obtain ⟨pair, member, same⟩ := offered
    have found :
        (codec.generated.codecs.find? fun other =>
          other.variant.operation == operation).isSome = true := by
      rw [List.find?_isSome]
      exact ⟨pair, member, by simp [same]⟩
    obtain ⟨first, firstFound⟩ := Option.isSome_iff_exists.mp found
    have answers : codec.generated.pair? operation = some first := firstFound
    exact ⟨first.variant, by rw [variant?, answers, Option.map_some]⟩
  · intro served
    obtain ⟨variant, serves⟩ := served
    obtain ⟨pair, answers, _⟩ := Option.map_eq_some_iff.mp serves
    have called := List.find?_some answers
    have member := List.mem_of_find?_eq_some answers
    exact ⟨pair, member, by simpa using called⟩

theorem exists_variant_of_compile
    (compiled : compile schema registry options = .ok codec) :
    ∃ operation variant, codec.variant? operation = some variant := by
  obtain ⟨variants, _, _, directed, _⟩ := parts_of_compile compiled
  have nonempty : ∃ variant, variant ∈ variants := by
    unfold Schema.variants at directed
    split at directed <;> cases directed <;> exact ⟨_, List.mem_cons_self⟩
  obtain ⟨variant, offered⟩ := nonempty
  have serves := (variant?_eq_some_iff compiled directed).mpr ⟨offered, rfl⟩
  exact ⟨variant.operation, variant, serves⟩

/-- The operation selected on a nested record stores it in the order of its own
directive, or else in the order of the variant around it. -/
theorem order_of_select
    (compiled : compile schema registry options = .ok codec)
    (selected : codec.contract.select variant = some operation) :
    ∃ inner,
      codec.variant? operation = some inner ∧
        inner.order = schema.order?.getD variant.order := by
  obtain ⟨variants, _, _, directed, _⟩ := parts_of_compile compiled
  have offered := Contract.offers_of_select selected
  obtain ⟨inner, serves⟩ := offers_iff_exists_variant.mp offered
  obtain ⟨member, called⟩ := (variant?_eq_some_iff compiled directed).mp serves
  have preferred : operation ∈ Contract.preference variant :=
    List.mem_of_find?_eq_some selected
  refine ⟨inner, serves, ?_⟩
  unfold Schema.variants at directed
  unfold Schema.order?
  split at directed
  · cases directed
  · cases directed
    rw [List.mem_singleton.mp member]
    simp [*]
  · cases directed
    rw [List.mem_singleton.mp member]
    simp [*]
  · cases directed
    -- Both inner variants are suffixed, and so is the operation that calls one.
    have ordered : operation = .ordered inner.order := by
      rw [← called]
      rcases List.mem_pair.mp member with first | second
      · rw [first]
        rfl
      · rw [second]
        rfl
    have same : inner.order = variant.order := by
      rw [ordered] at preferred
      unfold Contract.preference at preferred
      split at preferred <;> simpa using preferred
    simp [*]

end Compiled

end RecordCodec

/-! ## Stored fields of a shape -/

def Storage.ofLeaf (type : IntegerType) : Option EnumDecl → Storage
  | none => .integer type
  | some declaration => .enum declaration type

/-- Fields that are stored in a record of the given order have a shape.  A nested
record runs like the cursor over stored fields of its own. -/
inductive StoredField.Expands : ByteOrder → List StoredField → Shape → Prop
  | done (order : ByteOrder) : Expands order [] .done
  | leaf {order : ByteOrder} {stored : List StoredField} {shape : Shape}
      {type : IntegerType} (name : String) (enum? : Option EnumDecl)
      (sized : type.Sized) (rest : Expands order stored shape) :
      Expands order ({ name, storage := .ofLeaf type enum? } :: stored)
        (.leaf name type enum? shape)
  | nested {order : ByteOrder} {order? : Option ByteOrder}
      {innerStored stored : List StoredField} {innerShape shape : Shape}
      {codec : RecordCodec} {operation : Operation} (name : String)
      (runs : codec.RunsLike operation (order?.getD order) innerStored)
      (inner : Expands (order?.getD order) innerStored innerShape)
      (rest : Expands order stored shape) :
      Expands order
        ({ name, storage := .composite codec.toComposite operation } :: stored)
        (.nested name codec.name order? innerShape shape)

theorem StoredField.Expands.staticWidth_eq
    {order : ByteOrder} {stored : List StoredField} {shape : Shape}
    (expands : Expands order stored shape) :
    staticWidth stored = shape.staticSize := by
  induction expands with
  | done => rfl
  | @leaf _ _ _ type _ enum? _ _ inductionHypothesis =>
      rw [staticWidth_cons, inductionHypothesis, Shape.staticSize]
      cases enum? with
      | none => rfl
      | some declaration => rfl
  | nested name runs inner rest _ inductionHypothesis =>
      rw [staticWidth_cons, inductionHypothesis, Shape.staticSize,
        Storage.staticWidth, Nat.zero_add]

theorem StoredField.Expands.staticWidth_le_size
    {order : ByteOrder} {stored : List StoredField} {shape : Shape}
    (expands : Expands order stored shape) :
    staticWidth stored ≤ shape.size := by
  rw [expands.staticWidth_eq]
  exact shape.staticSize_le_size

theorem Shape.Of.expands
    {registry : Registry} {fields : List Field} {shape : Shape}
    (shaped : Shape.Of registry fields shape) {variant : Variant}
    {stored : List StoredField}
    (storedFields :
      List.Forall₂ (Field.StoredAs registry variant) fields stored) :
    StoredField.Expands variant.order stored shape := by
  induction shaped generalizing variant stored with
  | done =>
      cases storedFields
      exact .done _
  | integer name scalarType rest inductionHypothesis =>
      cases storedFields with
      | @cons _ made _ others first storedRest =>
          have sized := IntegerType.sized_of_ofPrimitive? scalarType
          obtain ⟨sameName, found⟩ := first
          simp only [Field.storage?, scalarType, Option.map_some,
            Option.some.injEq] at found
          cases made
          cases sameName
          cases found
          exact .leaf name none sized (inductionHypothesis storedRest)
  | enum name answer represented rest inductionHypothesis =>
      cases storedFields with
      | @cons _ made _ others first storedRest =>
          have sized := IntegerType.sized_of_ofPrimitive? represented
          obtain ⟨sameName, found⟩ := first
          simp only [Field.storage?, answer, represented, Option.map_some,
            Option.some.injEq] at found
          cases made
          cases sameName
          cases found
          exact .leaf name (some _) sized (inductionHypothesis storedRest)
  | @nested _ _ _ _ _ _ _ codec schema options _ name answer compiled inner rest
      innerHypothesis restHypothesis =>
      cases storedFields with
      | @cons _ made _ others first storedRest =>
          obtain ⟨sameName, found⟩ := first
          simp only [Field.storage?, answer] at found
          obtain ⟨operation, selected, same⟩ := Option.map_eq_some_iff.mp found
          obtain ⟨innerVariant, serves, innerOrder⟩ :=
            RecordCodec.order_of_select compiled selected
          obtain ⟨innerStored, innerFields, runs⟩ :=
            RecordCodec.runsLike_of_compile compiled serves
          have innerExpands := innerHypothesis innerFields
          rw [innerOrder] at runs innerExpands
          have named := RecordCodec.name_of_compile compiled
          cases made
          cases sameName
          cases same
          rw [← named]
          exact .nested name runs innerExpands (restHypothesis storedRest)

namespace RecordCodec.HasShape

variable {codec : RecordCodec} {shape : Shape} (has : codec.HasShape shape)
include has

/-- An operation of a record with a shape runs like the cursor over stored fields
of that shape. -/
theorem exists_run
    {operation : Operation} {variant : Variant}
    (serves : codec.variant? operation = some variant) :
    ∃ stored,
      codec.RunsLike operation variant.order stored ∧
        StoredField.Expands variant.order stored shape := by
  obtain ⟨compiled, shaped⟩ := has
  obtain ⟨stored, storedFields, runs⟩ := runsLike_of_compile compiled serves
  exact ⟨stored, runs, shaped.expands storedFields⟩

theorem staticSize_eq
    {pair : CodecPair} (member : pair ∈ codec.generated.codecs) :
    pair.staticSize = shape.staticSize := by
  obtain ⟨compiled, shaped⟩ := has
  obtain ⟨operation, variant, serves⟩ := exists_variant_of_compile compiled
  obtain ⟨planned, placed, stored, total, answers, storedFields, places, same⟩ :=
    layout_of_compile compiled serves
  have plannedMember : planned ∈ codec.generated.codecs :=
    List.mem_of_find?_eq_some answers
  have base := places.base_stop
  have expands := shaped.expands storedFields
  have plannedSize : planned.staticSize = total.base := by
    rw [same]
    rfl
  rw [staticSize_eq_of_compile compiled member plannedMember, plannedSize, base,
    expands.staticWidth_eq]
  exact Nat.zero_add _

/-- The size of a record is its static size in any variant and the sizes of the
records nested in it. -/
theorem size_eq
    {pair : CodecPair} (member : pair ∈ codec.generated.codecs) :
    shape.size = pair.staticSize + (shape.records.map Shape.size).sum := by
  rw [has.staticSize_eq member]
  exact shape.size_eq_staticSize_add

theorem nodup_fields : shape.fields.Nodup := by
  obtain ⟨compiled, shaped⟩ := has
  rw [shaped.fields_eq]
  exact nodup_names_of_compile compiled

theorem distinct : shape.Distinct := by
  obtain ⟨_, shaped⟩ := has
  exact shaped.distinct

end RecordCodec.HasShape

/-! ## Catalogs over enums -/

/-- Every composite that the registry binds is a record with a shape. -/
def Registry.Shaped (registry : Registry) : Prop :=
  ∀ typeName declared target,
    registry.get? typeName = some (.bound declared target) →
      ∃ codec shape,
        RecordCodec.toComposite codec = target ∧ codec.HasShape shape

private theorem Shape.exists_of_storedAs
    {registry : Registry} (shapedTypes : registry.Shaped) {variant : Variant}
    {fields : List Field} {stored : List StoredField}
    (storedFields :
      List.Forall₂ (Field.StoredAs registry variant) fields stored) :
    ∃ shape, Shape.Of registry fields shape := by
  induction storedFields with
  | nil => exact ⟨.done, .done registry⟩
  | @cons field made fields stored first _ inductionHypothesis =>
      obtain ⟨shape, shaped⟩ := inductionHypothesis
      obtain ⟨name, type, ordinal⟩ := field
      have found := first.2
      unfold Field.storage? at found
      split at found
      · cases found
      · next scalar isPrimitive =>
          cases isPrimitive
          obtain ⟨type, scalarType, _⟩ := Option.map_eq_some_iff.mp found
          exact ⟨_, .integer name scalarType shaped⟩
      · next typeName isNamed =>
          cases isNamed
          split at found
          · next declaration answer =>
              obtain ⟨underlying, represented, _⟩ :=
                Option.map_eq_some_iff.mp found
              exact ⟨_, .enum name answer represented shaped⟩
          · next declared target answer =>
              obtain ⟨codec, innerShape, rfl, compiled, inner⟩ :=
                shapedTypes _ _ _ answer
              exact ⟨_, .nested name answer compiled inner shaped⟩
          · cases found
          · cases found

theorem RecordCodec.exists_shape_of_compile
    {schema : Schema} {registry : Registry} {options : GenerateOptions}
    {codec : RecordCodec} (shapedTypes : registry.Shaped)
    (compiled : compile schema registry options = .ok codec) :
    ∃ shape, codec.HasShape shape := by
  obtain ⟨operation, variant, serves⟩ := exists_variant_of_compile compiled
  obtain ⟨stored, storedFields, _⟩ := runsLike_of_compile compiled serves
  obtain ⟨shape, shaped⟩ := Shape.exists_of_storedAs shapedTypes storedFields
  exact ⟨shape, compiled, shaped⟩

namespace Catalog

variable {start : Registry} {catalog : Catalog}

theorem Reached.shaped
    (onlyEnums : start.OnlyEnums) (reached : Reached start catalog) :
    catalog.registry.Shaped := by
  induction reached with
  | start =>
      intro typeName declared target answer
      obtain ⟨declaration, same⟩ := onlyEnums typeName _ answer
      cases same
  | @add catalog _ schema options inductionHypothesis =>
      unfold Catalog.add
      split
      · next codec compiles =>
          intro typeName declared target answer
          simp only [Registry.get?_declare] at answer
          split at answer
          · cases answer
            obtain ⟨shape, has⟩ :=
              RecordCodec.exists_shape_of_compile inductionHypothesis compiles
            exact ⟨codec, shape, rfl, has⟩
          · exact inductionHypothesis typeName declared target answer
      · exact inductionHypothesis

/-- Every record of a catalog over enums has a shape. -/
theorem Reached.exists_shape
    (onlyEnums : start.OnlyEnums) (reached : Reached start catalog)
    {codec : RecordCodec} (member : codec ∈ catalog.codecs) :
    ∃ shape, codec.HasShape shape := by
  obtain ⟨earlier, schema, options, reachedEarlier, _, compiled⟩ :=
    reached.compiled member
  exact RecordCodec.exists_shape_of_compile (reachedEarlier.shaped onlyEnums)
    compiled

end Catalog

/-! ## The shape of a record inside a record -/

namespace Drawing

def pointShape : Shape :=
  .leaf "x" { width := 2, signed := true } none
    (.leaf "colour" { width := 1, signed := true } (some colour) .done)

def lineShape : Shape :=
  .leaf "dashed" { width := 1, signed := false } none
    (.nested "start" "Point" none pointShape
      (.leaf "length" { width := 2, signed := false } none .done))

example : lineShape.size = 6 := by
  decide

theorem exists_codec_of_lineShape :
    ∃ codec ∈ lines.codecs,
      RecordCodec.compile line points.registry {} = .ok codec ∧
        codec.HasShape lineShape := by
  obtain ⟨pointCodec, pointCompiled, answer⟩ :
      ∃ codec,
        RecordCodec.compile point colours {} = .ok codec ∧
          points.registry.get? "Point" =
            some (.bound "Point" codec.toComposite) :=
    ⟨_, rfl, rfl⟩
  have pointShaped : Shape.Of colours point.fields pointShape :=
    .integer "x" rfl (.enum "colour" rfl rfl (.done colours))
  have lineShaped : Shape.Of points.registry line.fields lineShape :=
    .integer "dashed" rfl
      (.nested "start" answer pointCompiled pointShaped
        (.integer "length" rfl (.done points.registry)))
  exact ⟨_, List.mem_cons_of_mem _ List.mem_cons_self, rfl, .intro rfl lineShaped⟩

theorem offers_ordered_of_line
    {codec : RecordCodec}
    (compiled : RecordCodec.compile line points.registry {} = .ok codec)
    (order : ByteOrder) :
    codec.contract.offers (.ordered order) = true := by
  cases compiled
  cases order <;> rfl

end Drawing

end PackedRecord
