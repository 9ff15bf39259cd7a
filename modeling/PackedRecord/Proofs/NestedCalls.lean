import PackedRecord.Proofs.BundleCatalog
import PackedRecord.Proofs.ExchangeRoundTrip
import PackedRecord.Proofs.RenderedLines
import PackedRecord.Proofs.Shape

/-!
# Calls between rendered records

The rendered source of a record calls functions of the records nested in it.  The
naming options rename the functions that a record defines, and the calls keep the
default names.  So the sources of a catalog fit together in one direction exactly if
the naming of that direction is the default one.
-/

namespace PackedRecord

theorem Direction.touch_mem_touchAll_iff
    (direction : Direction) (demanded : Offset) {field : PlacedField}
    {fields : List PlacedField} :
    direction.touch field ∈ direction.touchAll demanded fields ↔
      field ∈ fields := by
  have sameTouch : ∀ other : PlacedField,
      direction.touch field = direction.touch other ↔ field = other := by
    intro other
    cases direction <;> simp [Direction.touch]
  have noDemand : ∀ size : Offset, direction.touch field ≠ .require size := by
    intro size
    cases direction <;> simp [Direction.touch]
  induction fields generalizing demanded with
  | nil => simp [Direction.touchAll]
  | cons first rest inductionHypothesis =>
      rw [Direction.touchAll]
      cases first.access.length? with
      | none =>
          simp only [List.mem_cons, sameTouch, inductionHypothesis demanded]
      | some length =>
          simp only [List.mem_cons, sameTouch, noDemand, false_or,
            inductionHypothesis (demanded.plus length)]

theorem Layout.touch_mem_body_iff
    (layout : Layout) (naming : Naming) (direction : Direction)
    {field : PlacedField} :
    direction.touch field ∈ (layout.procedure naming direction).body ↔
      field ∈ layout.fields := by
  rw [Layout.procedure, List.mem_cons, List.mem_append,
    direction.touch_mem_touchAll_iff]
  cases direction <;> simp [Direction.touch, Direction.closing]

private theorem Layout.forall₂_of_placeFrom
    {record : String} {registry : Registry} {variants : List Variant}
    {variant : Variant} {fields : List Field}
    {classified : List ClassifiedField} {start stop : Offset}
    {placed : List PlacedField}
    (kinds :
      List.Forall₂
        (fun field made =>
          made.name = field.name ∧
            field.classify record registry variants = .ok made.kind)
        fields classified)
    (places :
      placeFrom (· + ·) record variant start classified = .ok (placed, stop)) :
    List.Forall₂
      (fun field place =>
        place.name = field.name ∧
          ∃ (made : ClassifiedField) (next : Nat),
            field.classify record registry variants = .ok made.kind ∧
              access record variant next made = .ok place.access)
      fields placed := by
  induction kinds generalizing start placed with
  | nil =>
      cases places
      exact List.Forall₂.nil
  | @cons field made fields classified first _ inductionHypothesis =>
      obtain ⟨access, others, accessed, placesRest, rfl⟩ :=
        placeFrom_cons_eq_ok.mp places
      apply List.Forall₂.cons
      · exact ⟨first.1, made, _, first.2, accessed⟩
      · exact inductionHypothesis placesRest

/-- A field of a bound type is accessed by an operation that the type offers. -/
private theorem Field.access_of_bound
    {record name : String} {registry : Registry} {variants : List Variant}
    {field : Field} {variant : Variant} {next : Nat} {made : ClassifiedField}
    {access : Access} {target : Composite} (nested : field.type = .named name)
    (bound :
      ∀ answer,
        registry.get? name = some answer → answer = .bound name target)
    (classifies : field.classify record registry variants = .ok made.kind)
    (accessed : Layout.access record variant next made = .ok access) :
    ∃ operation length,
      access = .composite name operation length ∧
        target.contract.offers operation = true := by
  have means := Field.classify_eq_ok_iff.mp classifies
  rw [nested] at means
  generalize kind : made.kind = meaning at means
  cases means with
  | enum found stored => cases bound _ found
  | composite found offered usable =>
      cases bound _ found
      cases offered
      rw [Layout.access, kind] at accessed
      simp only at accessed
      cases selected : target.contract.select variant with
      | none =>
          rw [selected] at accessed
          cases accessed
      | some operation =>
          rw [selected] at accessed
          cases accessed
          exact ⟨operation, _, rfl, Contract.offers_of_select selected⟩

/-- Variants are suffixed unless a directive sets their order. -/
private theorem Schema.suffixed_of_variants
    {schema : Schema} {variants : List Variant}
    (directed : schema.variants = .ok variants) {variant : Variant}
    (member : variant ∈ variants) :
    variant.suffixed = schema.order?.isNone := by
  unfold Schema.variants at directed
  unfold Schema.order?
  split at directed
  · cases directed
  · cases directed
    rw [List.mem_singleton.mp member]
    simp [*]
  · cases directed
    rw [List.mem_singleton.mp member]
    simp [*]
  · cases directed
    rcases List.mem_pair.mp member with first | second
    · rw [first]
      simp [*]
    · rw [second]
      simp [*]

theorem Variant.operation_eq_generic_iff (variant : Variant) :
    variant.operation = .generic ↔ variant.suffixed = false := by
  rw [Variant.operation]
  cases variant.suffixed <;> simp

namespace RecordCodec

section Compiled

variable {schema : Schema} {registry : Registry} {options : GenerateOptions}
  {codec : RecordCodec} {pair : CodecPair}
  (compiled : compile schema registry options = .ok codec)
include compiled

private theorem naming_of_pair
    (member : pair ∈ codec.generated.codecs) (direction : Direction) :
    (pair.procedure direction).direction = direction ∧
      (pair.procedure direction).name =
        pair.variant.operation.name (direction.baseName options.naming) := by
  obtain ⟨_, _, _, directed, kinds, _⟩ := parts_of_compile compiled
  obtain ⟨_, _, _, _, _, same⟩ := layout_of_pair compiled directed kinds member
  rw [same, Layout.procedure_emit]
  exact ⟨rfl, rfl⟩

private theorem generic_iff_of_pair
    (member : pair ∈ codec.generated.codecs) :
    pair.variant.operation = .generic ↔ schema.order?.isNone = false := by
  obtain ⟨_, _, _, directed, kinds, _⟩ := parts_of_compile compiled
  obtain ⟨variant, listed, _, _, _, same⟩ :=
    layout_of_pair compiled directed kinds member
  rw [Variant.operation_eq_generic_iff, same,
    ← Schema.suffixed_of_variants directed listed]
  exact Iff.rfl

/-- Functions are named by the naming options and the operation of their variant, so
the one that an offered operation has under a base name is defined exactly if this
is the base name of the options. -/
theorem defines_operation_iff
    {operation : Operation}
    (offered : codec.contract.offers operation = true)
    (rendering : Source.RenderOptions) (direction : Direction)
    (base : String) :
    Source.Defines rendering codec.generated direction (operation.name base) ↔
      direction.baseName options.naming = base := by
  rw [Source.defines_iff fun pair member direction =>
    (naming_of_pair compiled member direction).1]
  obtain ⟨variant, serves⟩ := offers_iff_exists_variant.mp offered
  obtain ⟨called, answers, _⟩ := Option.map_eq_some_iff.mp serves
  have calledMember : called ∈ codec.generated.codecs :=
    List.mem_of_find?_eq_some answers
  have calls : called.variant.operation = operation := by
    simpa using List.find?_some answers
  constructor
  · intro defined
    obtain ⟨pair, member, sameName⟩ := defined
    rw [(naming_of_pair compiled member direction).2, ← calls] at sameName
    have alike :
        pair.variant.operation = .generic ↔
          called.variant.operation = .generic := by
      rw [generic_iff_of_pair compiled member,
        generic_iff_of_pair compiled calledMember]
    exact (Operation.eq_of_name alike sameName).2
  · intro sameBase
    refine ⟨called, calledMember, ?_⟩
    rw [(naming_of_pair compiled calledMember direction).2, calls, sameBase]

/-- The procedures of a record touch each field of its schema once, and a field of a
bound type by an operation that the type offers. -/
private theorem touches_nested
    (member : pair ∈ codec.generated.codecs) (direction : Direction)
    {field : Field} (declared : field ∈ schema.fields) {name : String}
    (nested : field.type = .named name) {target : Composite}
    (bound :
      ∀ answer,
        registry.get? name = some answer → answer = .bound name target) :
    (∃ placed,
        direction.touch placed ∈ (pair.procedure direction).body ∧
          placed.name = field.name) ∧
      ∀ placed,
        direction.touch placed ∈ (pair.procedure direction).body →
          placed.name = field.name →
            ∃ operation length,
              placed.access = .composite name operation length ∧
                target.contract.offers operation = true := by
  obtain ⟨variants, classified, _, directed, kinds, _⟩ :=
    parts_of_compile compiled
  obtain ⟨variant, _, places, total, placing, same⟩ :=
    layout_of_pair compiled directed kinds member
  have touched : ∀ placed,
      direction.touch placed ∈ (pair.procedure direction).body ↔
        placed ∈ places := by
    intro placed
    rw [same, Layout.procedure_emit, Layout.touch_mem_body_iff]
  have each :=
    Layout.forall₂_of_placeFrom (Schema.forall₂_of_classify kinds) placing
  constructor
  · obtain ⟨placed, inLayout, sameName, _⟩ :=
      exists_source_of_forall₂ each.flip declared
    exact ⟨placed, (touched placed).mpr inLayout, sameName⟩
  · intro placed inBody sameName
    have listed :=
      (List.forall₂_and_left schema.fields places).mpr
        ⟨fun _ listed => listed, each⟩
    obtain ⟨source, _, listedSource, sourceName, made, next, classifies,
      accessed⟩ :=
      exists_source_of_forall₂ listed ((touched placed).mp inBody)
    have isField : source = field :=
      List.inj_on_of_nodup_map (nodup_names_of_compile compiled) listedSource
        declared (sourceName.symm.trans sameName)
    rw [isField] at classifies
    exact Field.access_of_bound nested bound classifies accessed

end Compiled

end RecordCodec

/-! ## Sources of one bundle -/

namespace Bundle

private theorem access_of_nested
    {bundle : Bundle} {catalog : Catalog}
    (compiles : bundle.catalog = .ok catalog) {outer inner : RecordCodec}
    (outerMember : outer ∈ catalog.codecs)
    (innerMember : inner ∈ catalog.codecs)
    {record : RecordDef} (described : record ∈ bundle.records)
    (named : record.name = outer.name) {field : Field}
    (declared : field ∈ record.schema.fields)
    (nested : field.type = .named inner.name) {pair : CodecPair}
    (pairMember : pair ∈ outer.generated.codecs) (direction : Direction) :
    (∃ placed,
        direction.touch placed ∈ (pair.procedure direction).body ∧
          placed.name = field.name) ∧
      ∀ placed,
        direction.touch placed ∈ (pair.procedure direction).body →
          placed.name = field.name →
            ∃ operation length,
              placed.access = .composite inner.name operation length ∧
                inner.contract.offers operation = true := by
  obtain ⟨distinct, built⟩ := builtFrom_of_catalog compiles
  obtain ⟨registry, answers, compiled⟩ :=
    built.compile_of_name distinct outerMember (List.mem_map_of_mem described)
      (record.name_schema.trans named)
  have bound :
      ∀ answer,
        registry.get? inner.name = some answer →
          answer = .bound inner.name inner.toComposite :=
    fun _ found => built.answer_eq_bound distinct answers innerMember found
  exact RecordCodec.touches_nested compiled pairMember direction declared nested
    bound

/-- In every catalog of a bundle, each procedure of a record calls a function of the
record that a field nests, and the source of the nested record defines this
function exactly if the bundle keeps the default name of the direction. -/
theorem nested_call_defined_iff_default_name
    {bundle : Bundle} {catalog : Catalog}
    (compiles : bundle.catalog = .ok catalog) {outer inner : RecordCodec}
    (outerMember : outer ∈ catalog.codecs)
    (innerMember : inner ∈ catalog.codecs)
    {record : RecordDef} (described : record ∈ bundle.records)
    (named : record.name = outer.name) {field : Field}
    (declared : field ∈ record.schema.fields)
    (nested : field.type = .named inner.name) {pair : CodecPair}
    (pairMember : pair ∈ outer.generated.codecs) (direction : Direction)
    (options : Source.RenderOptions) :
    (∃ placed,
        direction.touch placed ∈ (pair.procedure direction).body ∧
          placed.name = field.name) ∧
      ∀ placed,
        direction.touch placed ∈ (pair.procedure direction).body →
          placed.name = field.name →
            ∃ operation length,
              placed.access = .composite inner.name operation length ∧
                Source.statementLine options (direction.touch placed) =
                  Source.callLine options direction placed length inner.name
                    (operation.name (direction.baseName {})) ∧
                "        " ++
                    Source.statementLine options (direction.touch placed) ∈
                  Source.generatedLines options outer.generated ∧
                (Source.Defines options inner.generated direction
                    (operation.name (direction.baseName {})) ↔
                  direction.baseName bundle.options.naming =
                    direction.baseName {}) := by
  obtain ⟨touched, accesses⟩ :=
    access_of_nested compiles outerMember innerMember described named declared
      nested pairMember direction
  refine ⟨touched, ?_⟩
  intro placed inBody sameName
  obtain ⟨operation, length, access, offered⟩ := accesses placed inBody sameName
  refine ⟨operation, length, access, ?_, ?_, ?_⟩
  · exact Source.statementLine_touch_composite options direction access
  · have inPair :=
      Source.mem_pairLines_of_procedure
        (Source.statement_mem_procedureLines options inBody)
    apply Source.mem_generatedLines_of_pair pairMember _ inPair
    intro blank
    have lists := congrArg String.toList blank
    rw [String.toList_append] at lists
    cases lists
  · obtain ⟨_, built⟩ := builtFrom_of_catalog compiles
    obtain ⟨_, _, _, _, compiled⟩ := built.compiled inner innerMember
    exact RecordCodec.defines_operation_iff compiled offered options direction _

end Bundle

namespace Drawing

/-- The drawing with other names for the functions of its records. -/
def packing : Bundle :=
  { described with
    options := { naming := { decode := "unpack", encode := "pack" } } }

def packedLines : Catalog :=
  Catalog.compile colours [point, line] packing.options

theorem catalog_packing : packing.catalog = .ok packedLines := by
  have parts : packing.parts = .ok (colours, [point, line]) := by
    rw [← schemas_described]
    rfl
  rw [Bundle.catalog, parts]
  rfl

end Drawing

namespace Bundle

/-- A line of the renamed drawing calls what its point does not define. -/
theorem nested_call_defined_iff_default_name_of_packing :
    ∃ outer inner,
      Drawing.packedLines.codec? "Line" = some outer ∧
        Drawing.packedLines.codec? "Point" = some inner ∧
          "        " ++
              ("let (start, len_1) = ::binlayout::wire::decode_nested(buffer, " ++
                "1, Point::decode_little_endian)?;") ∈
            Source.generatedLines {} outer.generated ∧
          ¬ Source.Defines {} inner.generated .decode "decode_little_endian" := by
  let placed : PlacedField :=
    { name := "start"
      access := .composite "Point" (.ordered .little) { index := 0 }
      offset := { base := 1 } }
  obtain ⟨outer, foundOuter, pair, pairMember, inBody⟩ :
      ∃ outer,
        Drawing.packedLines.codec? "Line" = some outer ∧
          ∃ pair ∈ outer.generated.codecs,
            Direction.decode.touch placed ∈ (pair.procedure .decode).body :=
    ⟨_, rfl, _, List.mem_cons_self, List.mem_cons_of_mem _
      (List.mem_cons_of_mem _ List.mem_cons_self)⟩
  obtain ⟨inner, foundInner⟩ :
      ∃ inner, Drawing.packedLines.codec? "Point" = some inner :=
    ⟨_, rfl⟩
  have outerName : outer.name = "Line" := by
    simpa using List.find?_some foundOuter
  have innerName : inner.name = "Point" := by
    simpa using List.find?_some foundInner
  have listed :
      Drawing.line ∈ Drawing.packing.records.map RecordDef.schema := by
    rw [Drawing.packing, Drawing.schemas_described]
    exact List.mem_cons_of_mem _ List.mem_cons_self
  obtain ⟨record, described, isLine⟩ := List.mem_map.mp listed
  have named : record.name = "Line" :=
    record.name_schema.symm.trans (congrArg Schema.name isLine)
  have declared :
      ({ name := "start", type := .named "Point", ordinal := 1 } : Field) ∈
        record.schema.fields := by
    rw [isLine]
    exact List.mem_cons_of_mem _ List.mem_cons_self
  obtain ⟨_, calls⟩ :=
    nested_call_defined_iff_default_name Drawing.catalog_packing
      (List.mem_of_find?_eq_some foundOuter)
      (List.mem_of_find?_eq_some foundInner) described
      (named.trans outerName.symm) declared
      (congrArg TypeRef.named innerName.symm) pairMember .decode {}
  obtain ⟨operation, length, access, _, rendered, defined⟩ :=
    calls placed inBody rfl
  obtain ⟨_, called, _⟩ := Access.composite.inj access
  rw [← called] at defined
  have text :
      Source.statementLine {} (Direction.decode.touch placed) =
        "let (start, len_1) = ::binlayout::wire::decode_nested(buffer, " ++
          "1, Point::decode_little_endian)?;" := by
    decide +kernel
  refine ⟨outer, inner, foundOuter, foundInner, ?_, ?_⟩
  · rw [text] at rendered
    exact rendered
  · intro defines
    exact absurd (defined.mp defines) (by decide)

end Bundle

end PackedRecord
