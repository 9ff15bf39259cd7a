import PackedRecord.Proofs.CatalogHistory
import PackedRecord.Proofs.ComponentCalls
import PackedRecord.Proofs.FailedEncoding

/-!
# Contracts are honoured

Where types are enums and compiled records alone, a contract says exactly what can be
asked for, and a request that it allows fails over the data at hand and for no other
reason: too few bytes, a number that is no variant, a value that does not fit its
field.  Nothing is left of the failures that blame a component, because no component
is asked for what it does not offer and none reports more than it was handed.

The induction over nesting is that of laws of components; the law is
`Composite.Honours`.
-/

namespace PackedRecord

namespace CodecError

/-- The failures that data can cause in decoding. -/
inductive FromReading : CodecError → Prop
  | bufferTooSmall (needed available : Nat) :
      FromReading (.bufferTooSmall needed available)
  | invalidEnumValue (type : String) (value : Int) :
      FromReading (.invalidEnumValue type value)

/-- The failures that data can cause in encoding. -/
inductive FromWriting : CodecError → Prop
  | bufferTooSmall (needed available : Nat) :
      FromWriting (.bufferTooSmall needed available)
  | missingField (field : String) : FromWriting (.missingField field)
  | typeMismatch (field expected : String) :
      FromWriting (.typeMismatch field expected)
  | valueOutOfRange (field : String) (value : Int) :
      FromWriting (.valueOutOfRange field value)
  | invalidEnumValue (type : String) (value : Int) :
      FromWriting (.invalidEnumValue type value)

end CodecError

/-! ## Causes of failed accesses -/

section Causes

variable {cause : CodecError} {buffer before after : Bytes}

private theorem Bytes.require_cause
    {available needed : Nat}
    (failed : require available needed = .error cause) :
    cause = .bufferTooSmall needed available := by
  unfold require at failed
  split at failed <;> cases failed
  rfl

private theorem Bytes.readWord_cause
    {offset width : Nat} {order : ByteOrder}
    (failed : buffer.readWord offset width order = .error cause) :
    cause.FromReading := by
  rw [(readWord_eq_error.mp failed).2]
  exact .bufferTooSmall _ _

private theorem RecordCodec.loadVariant_cause
    {declaration : EnumDecl} {underlying : IntegerType} {typeName : String}
    {word : UInt64}
    (failed :
      loadVariant declaration underlying typeName word = .error cause) :
    cause.FromReading := by
  simp only [loadVariant] at failed
  split at failed <;> cases failed
  exact .invalidEnumValue _ _

/-- A decoder that reports no more than it was handed is never blamed for it. -/
private theorem Bytes.decodeNested_cause
    {value : Type} {offset : Nat}
    {decode : Bytes → Except CodecError (value × Nat)}
    (causes : ∀ tail cause, decode tail = .error cause → cause.FromReading)
    (within : ∀ tail decoded consumed,
      decode tail = .ok (decoded, consumed) → consumed ≤ tail.length)
    (failed : buffer.decodeNested offset decode = .error cause) :
    cause.FromReading := by
  simp only [decodeNested, bind_eq_error] at failed
  rcases failed with short | ⟨_, _, inside | ⟨found, decoded, reported⟩⟩
  · rw [require_cause short]
    exact .bufferTooSmall _ _
  · exact causes _ cause inside
  · have enough := within _ found.1 found.2 decoded
    rcases reported with blamed | ⟨_, _, absurdly⟩
    · rw [checkReported, if_neg (Nat.not_lt.mpr enough)] at blamed
      cases blamed
    · cases absurdly

private theorem RecordCodec.checkedWord_cause
    {field : String} {type : IntegerType} {number : Int}
    (failed : checkedWord field type number = .error cause) :
    cause.FromWriting := by
  unfold checkedWord at failed
  split at failed <;> cases failed
  exact .valueOutOfRange _ _

private theorem RecordCodec.integerWord_cause
    {field : String} {type : IntegerType} {value : Value}
    (failed : integerWord field type value = .error cause) :
    cause.FromWriting := by
  unfold integerWord at failed
  split at failed
  · exact checkedWord_cause failed
  · cases failed
    exact .typeMismatch _ _

private theorem RecordCodec.discriminant_cause
    {declaration : EnumDecl} {field typeName : String} {value : Value}
    (failed : discriminant declaration field typeName value = .error cause) :
    cause.FromWriting := by
  unfold discriminant at failed
  grind [CodecError.FromWriting]

private theorem Writer.require_cause
    {needed : Nat}
    (failed : Writer.require needed before = .error cause after) :
    cause.FromWriting := by
  obtain ⟨short, _⟩ := Writer.ofExcept_eq_error.mp failed
  rw [Bytes.require_cause short]
  exact .bufferTooSmall _ _

private theorem Writer.writeWord_cause
    {offset width : Nat} {order : ByteOrder} {word : UInt64}
    (failed :
      Writer.writeWord offset width order word before = .error cause after) :
    cause.FromWriting := by
  rw [(writeWord_eq_error.mp failed).2.1]
  exact .bufferTooSmall _ _

private theorem Writer.encodeNested_cause
    {offset : Nat} {encode : Writer Nat}
    (causes : ∀ tail cause left,
      encode tail = .error cause left → cause.FromWriting)
    (within : ∀ tail written left,
      encode tail = .ok written left → written ≤ tail.length)
    (failed : Writer.encodeNested offset encode before = .error cause after) :
    cause.FromWriting := by
  unfold Writer.encodeNested at failed
  split at failed
  · next short =>
      cases failed
      rw [Bytes.require_cause short]
      exact .bufferTooSmall _ _
  · split at failed
    · next inside =>
        cases failed
        exact causes _ _ _ inside
    · next written tail encoded =>
        have enough := within _ _ _ encoded
        rw [List.length_drop] at enough
        rw [Bytes.checkReported, if_neg (Nat.not_lt.mpr enough)] at failed
        cases failed

end Causes

/-! ## The law -/

/-- Under the operation, a composite fails over data alone, and never reports more
than it was handed. -/
structure Composite.Honours (target : Composite) (operation : Operation) :
    Prop where
  decode_cause : ∀ buffer cause,
    target.decode operation buffer = .error cause → cause.FromReading
  decode_within : ∀ buffer value consumed,
    target.decode operation buffer = .ok (value, consumed) →
      consumed ≤ buffer.length
  encode_cause : ∀ value before cause after,
    target.encode operation value before = .error cause after →
      cause.FromWriting
  encode_within : ∀ value before written after,
    target.encode operation value before = .ok written after →
      written ≤ before.length

/-- A composite honours the operations that it offers. -/
def Composite.HonoursOffer (target : Composite) (operation : Operation) : Prop :=
  target.contract.offers operation = true → target.Honours operation

namespace Storage

variable {fair : EnumDecl → Prop} {storage : Storage} {order : ByteOrder}
  {cursor : Nat} {cause : CodecError}
  (obeys : storage.Obeys fair Composite.Honours)
include obeys

private theorem decodeAt_cause
    {buffer : Bytes}
    (failed : storage.decodeAt order buffer cursor = .error cause) :
    cause.FromReading := by
  cases storage with
  | integer type =>
      rcases bind_eq_error.mp failed with outside | ⟨_, _, absurdly⟩
      · exact Bytes.readWord_cause outside
      · cases absurdly
  | enum declaration underlying =>
      simp only [decodeAt, bind_eq_error] at failed
      rcases failed with outside | ⟨_, _, unknown | ⟨_, _, absurdly⟩⟩
      · exact Bytes.readWord_cause outside
      · exact RecordCodec.loadVariant_cause unknown
      · cases absurdly
  | composite target operation =>
      exact Bytes.decodeNested_cause obeys.decode_cause obeys.decode_within
        failed

private theorem encodeAt_cause
    {field : String} {value : Value} {before after : Bytes}
    (failed :
      storage.encodeAt order field value cursor before = .error cause after) :
    cause.FromWriting := by
  cases storage with
  | integer type =>
      simp only [encodeAt, Writer.bind_eq_error, Writer.ofExcept_eq_error]
        at failed
      rcases failed with ⟨unfit, _⟩ | ⟨_, _, _, outside | ⟨_, _, _, absurdly⟩⟩
      · exact RecordCodec.integerWord_cause unfit
      · exact Writer.writeWord_cause outside
      · cases absurdly
  | enum declaration underlying =>
      simp only [encodeAt, Writer.bind_eq_error, Writer.ofExcept_eq_error,
        bind_eq_error] at failed
      rcases failed with
        ⟨unknown | ⟨_, _, unfit⟩, _⟩ |
          ⟨_, _, _, outside | ⟨_, _, _, absurdly⟩⟩
      · exact RecordCodec.discriminant_cause unknown
      · exact RecordCodec.checkedWord_cause unfit
      · exact Writer.writeWord_cause outside
      · cases absurdly
  | composite target operation =>
      exact Writer.encodeNested_cause (obeys.encode_cause value)
        (obeys.encode_within value) failed

end Storage

namespace StoredField

variable {fair : EnumDecl → Prop} {stored : List StoredField}
  {order : ByteOrder} {cursor : Nat} {cause : CodecError}
  (obey : ∀ field ∈ stored, field.storage.Obeys fair Composite.Honours)
include obey

private theorem decodeFields_cause
    {buffer : Bytes}
    (failed : decodeFields order buffer cursor stored = .error cause) :
    cause.FromReading := by
  induction stored generalizing cursor with
  | nil =>
      rcases bind_eq_error.mp failed with short | ⟨_, _, absurdly⟩
      · rw [Bytes.require_cause short]
        exact .bufferTooSmall _ _
      · cases absurdly
  | cons field rest inductionHypothesis =>
      have obeyRest : ∀ later ∈ rest, later.storage.Obeys fair _ :=
        fun later member => obey later (List.mem_cons_of_mem _ member)
      simp only [decodeFields, bind_eq_error] at failed
      rcases failed with
        short | ⟨_, _, here | ⟨_, _, inRest | ⟨_, _, absurdly⟩⟩⟩
      · rw [Bytes.require_cause short]
        exact .bufferTooSmall _ _
      · exact Storage.decodeAt_cause (obey field List.mem_cons_self) here
      · exact inductionHypothesis obeyRest inRest
      · cases absurdly

private theorem encodeFields_cause
    {record : Record} {before after : Bytes}
    (failed :
      encodeFields order record cursor stored before = .error cause after) :
    cause.FromWriting := by
  induction stored generalizing cursor before with
  | nil =>
      rcases Writer.bind_eq_error.mp failed with short | ⟨_, _, _, absurdly⟩
      · exact Writer.require_cause short
      · cases absurdly
  | cons field rest inductionHypothesis =>
      have obeyRest : ∀ later ∈ rest, later.storage.Obeys fair _ :=
        fun later member => obey later (List.mem_cons_of_mem _ member)
      simp only [encodeFields, Writer.bind_eq_error] at failed
      rcases failed with short | ⟨_, _, _, here | ⟨_, _, _, inRest⟩⟩
      · exact Writer.require_cause short
      · unfold encodeAt at here
        cases found : record.get? field.name with
        | some value =>
            rw [found] at here
            exact Storage.encodeAt_cause (obey field List.mem_cons_self) here
        | none =>
            rw [found] at here
            cases here
            exact .missingField _
      · exact inductionHypothesis obeyRest inRest

end StoredField

namespace RecordCodec

section Compiled

variable {schema : Schema} {registry : Registry} {options : GenerateOptions}
  {codec : RecordCodec} {operation : Operation}

/-- A record honours what it offers if its components do: its variants select only
what the components offer. -/
theorem toComposite_honoursOffer
    (compiled : compile schema registry options = .ok codec)
    (components : codec.ComponentsObey Composite.HonoursOffer operation) :
    codec.toComposite.HonoursOffer operation := by
  intro offered
  obtain ⟨variant, serves⟩ := offers_iff_exists_variant.mp offered
  have selectedHonour :
      codec.ComponentsObey Composite.Honours operation := by
    intro variant typeName declared target selected serves bound selects
    exact components variant typeName declared target selected serves bound
      selects (Contract.offers_of_select selects)
  have anyEnum : codec.types.EnumsAre fun _ => True := fun _ _ _ => trivial
  obtain ⟨stored, _, runs, each⟩ :=
    lawfulRun_of_compile compiled serves anyEnum selectedHonour
  have obey : ∀ field ∈ stored, field.storage.Obeys _ Composite.Honours :=
    fun field member => (each field member).2
  constructor
  · intro buffer cause failed
    rcases bind_eq_error.mp failed with failedRun | ⟨_, _, absurdly⟩
    · rw [runs.decode_eq] at failedRun
      exact StoredField.decodeFields_cause obey failedRun
    · cases absurdly
  · intro buffer value consumed decoded
    obtain ⟨found, run, same⟩ := bind_eq_ok.mp decoded
    rw [runs.decode_eq] at run
    cases same
    exact (StoredField.decodeFields_bounds run).2
  · intro value before cause after failed
    simp only [toComposite, encodeValue] at failed
    cases isRecord : value.record? with
    | some record =>
        rw [isRecord] at failed
        simp only [runs.encode_eq] at failed
        exact StoredField.encodeFields_cause obey failed
    | none =>
        rw [isRecord] at failed
        cases failed
        exact .typeMismatch _ _
  · intro value before written after encoded
    simp only [toComposite, encodeValue] at encoded
    cases isRecord : value.record? with
    | some record =>
        rw [isRecord] at encoded
        simp only [runs.encode_eq] at encoded
        exact (StoredField.encodeFields_bounds encoded).2
    | none =>
        rw [isRecord] at encoded
        cases encoded

end Compiled

/-- An operation that calls no variant is refused by name. -/
theorem decode_of_no_variant
    {codec : RecordCodec} {operation : Operation}
    (absent : codec.variant? operation = none) (buffer : Bytes) :
    codec.decode operation buffer =
      .error (.unsupportedOperation codec.name (operation.name "decode")) := by
  have noPair : codec.generated.pair? operation = none :=
    Option.map_eq_none_iff.mp absent
  have refused :
      codec.pair operation "decode" =
        .error
          (.unsupportedOperation codec.name (operation.name "decode")) := by
    rw [pair, noPair]
  rw [decode, refused]
  rfl

theorem offers_eq_false_iff
    {codec : RecordCodec} {operation : Operation} :
    codec.contract.offers operation = false ↔
      codec.variant? operation = none := by
  rw [← Bool.not_eq_true, offers_iff_exists_variant, ← Option.isSome_iff_exists,
    Bool.not_eq_true, Option.isSome_eq_false_iff, Option.isNone_iff_eq_none]

/-- The contract of a record tells what becomes of a request: the operation is
unsupported exactly if it is not offered, an offered one fails over data alone, and no
component is ever blamed for the length it reports. -/
structure KeepsContract (codec : RecordCodec) (operation : Operation) :
    Prop where
  decode_unsupported_iff : ∀ buffer,
    (∃ record name,
      codec.decode operation buffer =
        .error (.unsupportedOperation record name)) ↔
      codec.contract.offers operation = false
  encode_unsupported_iff : ∀ record before,
    (∃ owner name after,
      codec.encode operation record before =
        .error (.unsupportedOperation owner name) after) ↔
      codec.contract.offers operation = false
  decode_cause :
    codec.contract.offers operation = true →
      ∀ buffer cause,
        codec.decode operation buffer = .error cause → cause.FromReading
  encode_cause :
    codec.contract.offers operation = true →
      ∀ record before cause after,
        codec.encode operation record before = .error cause after →
          cause.FromWriting
  decode_ne_invalidLength : ∀ buffer offset reported available,
    codec.decode operation buffer ≠
      .error (.invalidLength offset reported available)
  encode_ne_invalidLength : ∀ record before after offset reported available,
    codec.encode operation record before ≠
      .error (.invalidLength offset reported available) after

section Honours

variable {codec : RecordCodec} {operation : Operation}
  (honours : codec.toComposite.HonoursOffer operation)
include honours

private theorem decode_cause_of_honours
    (offered : codec.contract.offers operation = true) {buffer : Bytes}
    {cause : CodecError} (failed : codec.decode operation buffer = .error cause) :
    cause.FromReading := by
  apply (honours offered).decode_cause buffer cause
  exact bind_eq_error.mpr (Or.inl failed)

private theorem encode_cause_of_honours
    (offered : codec.contract.offers operation = true) {record : Record}
    {before after : Bytes} {cause : CodecError}
    (failed : codec.encode operation record before = .error cause after) :
    cause.FromWriting :=
  (honours offered).encode_cause (.record record) before cause after failed

/-- Decoding fails over data under an offered operation, and by name under any
other. -/
private theorem decode_failure_of_honours
    {buffer : Bytes} {cause : CodecError}
    (failed : codec.decode operation buffer = .error cause) :
    codec.contract.offers operation = true ∧ cause.FromReading ∨
      codec.contract.offers operation = false ∧
        cause =
          .unsupportedOperation codec.name (operation.name "decode") := by
  cases offered : codec.contract.offers operation with
  | true => exact Or.inl ⟨rfl, decode_cause_of_honours honours offered failed⟩
  | false =>
      rw [decode_of_no_variant (offers_eq_false_iff.mp offered)] at failed
      cases failed
      exact Or.inr ⟨rfl, rfl⟩

private theorem encode_failure_of_honours
    {record : Record} {before after : Bytes} {cause : CodecError}
    (failed : codec.encode operation record before = .error cause after) :
    codec.contract.offers operation = true ∧ cause.FromWriting ∨
      codec.contract.offers operation = false ∧
        cause =
          .unsupportedOperation codec.name (operation.name "encode") := by
  cases offered : codec.contract.offers operation with
  | true => exact Or.inl ⟨rfl, encode_cause_of_honours honours offered failed⟩
  | false =>
      rw [encode_of_no_variant (offers_eq_false_iff.mp offered)] at failed
      cases failed
      exact Or.inr ⟨rfl, rfl⟩

theorem keepsContract_of_honours : codec.KeepsContract operation where
  decode_unsupported_iff buffer := by
    constructor
    · rintro ⟨record, name, failed⟩
      rcases decode_failure_of_honours honours failed with
        ⟨_, overData⟩ | ⟨missing, _⟩
      · cases overData
      · exact missing
    · intro missing
      have absent := offers_eq_false_iff.mp missing
      exact ⟨_, _, decode_of_no_variant absent buffer⟩
  encode_unsupported_iff record before := by
    constructor
    · rintro ⟨owner, name, after, failed⟩
      rcases encode_failure_of_honours honours failed with
        ⟨_, overData⟩ | ⟨missing, _⟩
      · cases overData
      · exact missing
    · intro missing
      have absent := offers_eq_false_iff.mp missing
      exact ⟨_, _, _, encode_of_no_variant absent record before⟩
  decode_cause offered _ _ failed :=
    decode_cause_of_honours honours offered failed
  encode_cause offered _ _ _ _ failed :=
    encode_cause_of_honours honours offered failed
  decode_ne_invalidLength buffer offset reported available failed := by
    rcases decode_failure_of_honours honours failed with
      ⟨_, overData⟩ | ⟨_, byName⟩
    · cases overData
    · cases byName
  encode_ne_invalidLength record before after offset reported available
      failed := by
    rcases encode_failure_of_honours honours failed with
      ⟨_, overData⟩ | ⟨_, byName⟩
    · cases overData
    · cases byName

end Honours

end RecordCodec

namespace Catalog

variable {start : Registry} {catalog : Catalog}

theorem Reached.honours
    (onlyEnums : start.OnlyEnums) (reached : Reached start catalog)
    {codec : RecordCodec} (member : codec ∈ catalog.codecs)
    (operation : Operation) :
    codec.toComposite.HonoursOffer operation := by
  have inherits :
      ∀ {schema registry options codec},
        RecordCodec.compile schema registry options = .ok codec →
          ∀ operation,
            codec.ComponentsObey Composite.HonoursOffer operation →
              True ∧ codec.toComposite.HonoursOffer operation :=
    fun compiled _ components =>
      ⟨trivial, RecordCodec.toComposite_honoursOffer compiled components⟩
  exact ((reached.inherited_of_enums inherits onlyEnums).2 codec member
    operation).2

/-- Over enums, a name stands for an enum or for a record of the catalog. -/
theorem Reached.bound_of_codecs
    (onlyEnums : start.OnlyEnums) (reached : Reached start catalog)
    {typeName declared : String} {target : Composite}
    (answer :
      catalog.registry.get? typeName = some (.bound declared target)) :
    ∃ inner ∈ catalog.codecs,
      inner.name = typeName ∧ inner.toComposite = target := by
  induction reached with
  | start =>
      obtain ⟨declaration, same⟩ := onlyEnums typeName _ answer
      cases same
  | @add catalog _ schema options inductionHypothesis =>
      have stands :
          (catalog.adding { schema, options }).registry.get? typeName =
            some (.bound declared target) :=
        answer
      show ∃ inner ∈ (catalog.adding { schema, options }).codecs, _
      cases tried : catalog.outcome { schema, options } with
      | ok codec =>
          rw [adding_of_ok tried, Registry.get?_declare, TypeDecl.name] at stands
          rw [adding_of_ok tried]
          by_cases own : codec.name = typeName
          · rw [if_pos own] at stands
            cases stands
            exact ⟨codec, List.mem_append_right _ List.mem_cons_self, own, rfl⟩
          · rw [if_neg own] at stands
            obtain ⟨inner, member, named⟩ := inductionHypothesis stands
            exact ⟨inner, List.mem_append_left _ member, named⟩
      | error cause =>
          rw [adding_of_error tried] at stands ⊢
          exact inductionHypothesis stands

/-- The composites that a record calls on are records of the same catalog. -/
theorem Reached.components_of_codecs
    (onlyEnums : start.OnlyEnums) (reached : Reached start catalog)
    {codec : RecordCodec} (member : codec ∈ catalog.codecs)
    {typeName declared : String} {target : Composite}
    (bound : codec.types.get? typeName = some (.bound declared target)) :
    ∃ inner ∈ catalog.codecs,
      inner.name = typeName ∧ inner.toComposite = target := by
  obtain ⟨earlier, _, _, reachedEarlier, included, compiled⟩ :=
    reached.compiled member
  have answer := RecordCodec.boundFrom_of_compile compiled typeName _ bound
  obtain ⟨inner, innerMember, named, same⟩ :=
    reachedEarlier.bound_of_codecs onlyEnums answer
  exact ⟨inner, included innerMember, named, same⟩

end Catalog

namespace RecordCodec

/-- A compiled record calls its components by what their contracts offer.  Whatever
field a procedure touches is bound to the registered type, a composite is called with
the operation selected for the variant in both directions, and no other operation of
it is ever run.

In a catalog over enums, whose components are records of the catalog again, an
operation is unsupported exactly if the contract does not offer it, and an offered
one fails over data alone. -/
theorem contracts_are_honoured :
    (∀ (schema : Schema) (registry : Registry) (options : GenerateOptions)
        (codec : RecordCodec),
      compile schema registry options = .ok codec →
        (∀ operation pair direction field,
          codec.generated.pair? operation = some pair →
            Direction.touch direction field ∈
                (pair.procedure direction).body →
              codec.Binds registry pair.variant field.access) ∧
          ∀ operation variant instead,
            codec.variant? operation = some variant →
              (codec.confined variant instead).decode operation =
                  codec.decode operation ∧
                (codec.confined variant instead).encode operation =
                  codec.encode operation) ∧
      ∀ (start : Registry) (catalog : Catalog),
        start.OnlyEnums →
          Catalog.Reached start catalog →
            ∀ codec ∈ catalog.codecs,
              (∃ schema registry options,
                compile schema registry options = .ok codec) ∧
                (∀ typeName declared target,
                  codec.types.get? typeName = some (.bound declared target) →
                    ∃ inner ∈ catalog.codecs,
                      inner.name = typeName ∧ inner.toComposite = target) ∧
                  ∀ operation, codec.KeepsContract operation := by
  constructor
  · intro schema registry options codec compiled
    constructor
    · intro operation pair direction field answers touched
      exact binds_of_touch compiled answers touched
    · intro operation variant instead serves
      exact runs_of_confined instead compiled serves
  · intro start catalog onlyEnums reached codec member
    obtain ⟨earlier, schema, options, _, _, compiled⟩ := reached.compiled member
    refine ⟨⟨schema, earlier.registry, options, compiled⟩, ?_, ?_⟩
    · intro typeName declared target bound
      exact reached.components_of_codecs onlyEnums member bound
    · intro operation
      exact keepsContract_of_honours (reached.honours onlyEnums member operation)

theorem contracts_are_honoured_by_line :
    ∃ codec ∈ Drawing.lines.codecs,
      compile Drawing.line Drawing.points.registry {} = .ok codec ∧
        codec.Binds Drawing.points.registry { order := .big, suffixed := true }
            (.composite "Point" (.ordered .big) { index := 0 }) ∧
          (∃ record name,
            codec.decode .generic [1, 2, 3] =
              .error (.unsupportedOperation record name)) ∧
            ∀ buffer cause,
              codec.decode (.ordered .big) buffer = .error cause →
                cause.FromReading := by
  obtain ⟨codec, compiled, member⟩ :
      ∃ codec,
        compile Drawing.line Drawing.points.registry {} = .ok codec ∧
          codec ∈ Drawing.lines.codecs :=
    ⟨_, rfl, List.mem_cons_of_mem _ List.mem_cons_self⟩
  obtain ⟨ofCompiled, ofCatalog⟩ := contracts_are_honoured
  obtain ⟨touched, _⟩ := ofCompiled _ _ _ _ compiled
  obtain ⟨_, _, ofOperation⟩ :=
    ofCatalog Drawing.colours Drawing.lines Drawing.onlyEnums_colours
      (Catalog.reached_compile _ _ _) codec member
  have generic := ofOperation .generic
  have ordered := ofOperation (.ordered .big)
  refine ⟨codec, member, compiled, ?_, ?_, ?_⟩
  · let start : PlacedField :=
      { name := "start"
        access := .composite "Point" (.ordered .big) { index := 0 }
        offset := .constant 1 }
    obtain ⟨pair, answers, variant, read⟩ :
        ∃ pair,
          codec.generated.pair? (.ordered .big) = some pair ∧
            pair.variant = { order := .big, suffixed := true } ∧
              Direction.decode.touch start ∈
                (pair.procedure .decode).body := by
      cases compiled
      exact ⟨_, rfl, rfl,
        List.mem_cons_of_mem _ (List.mem_cons_of_mem _ List.mem_cons_self)⟩
    rw [← variant]
    exact touched (.ordered .big) pair .decode start answers read
  · apply (generic.decode_unsupported_iff [1, 2, 3]).mpr
    cases compiled
    rfl
  · exact ordered.decode_cause (Drawing.offers_ordered_of_line compiled .big)

end RecordCodec

end PackedRecord
