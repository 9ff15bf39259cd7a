import PackedRecord.Catalog
import PackedRecord.Proofs.CursorRun

/-!
# Laws of components

A law speaks of one operation of a composite.  A compiled record is itself a
composite, and for many laws it obeys one as soon as the composites that its
fields call on do.  A law that is inherited in this way holds at every nesting
depth: it holds for all records of a catalog if it holds for the composites that
the catalog started from.
-/

namespace PackedRecord

namespace RecordCodec

/-- Every composite that the record's fields call on obeys the law, for the
operation selected for it in the variant that the given operation calls. -/
def ComponentsObey (law : Composite → Operation → Prop) (codec : RecordCodec)
    (operation : Operation) : Prop :=
  ∀ variant typeName declared target selected,
    codec.variant? operation = some variant →
      codec.types.get? typeName = some (.bound declared target) →
        target.contract.select variant = some selected →
          law target selected

end RecordCodec

namespace Registry

/-- Every enum that the registry answers with has the property. -/
def EnumsAre (fair : EnumDecl → Prop) (registry : Registry) : Prop :=
  ∀ typeName declaration,
    registry.get? typeName = some (.enum declaration) → fair declaration

/-- Every composite that the registry answers with obeys the law, for all
operations that it offers. -/
def CompositesObey (law : Composite → Operation → Prop)
    (registry : Registry) : Prop :=
  ∀ typeName declared target operation,
    registry.get? typeName = some (.bound declared target) →
      target.contract.offers operation = true →
        law target operation

/-- The registry answers with nothing but enums. -/
def OnlyEnums (registry : Registry) : Prop :=
  ∀ typeName answer,
    registry.get? typeName = some answer →
      ∃ declaration, answer = .enum declaration

theorem OnlyEnums.compositesObey
    {registry : Registry} (onlyEnums : registry.OnlyEnums)
    (law : Composite → Operation → Prop) :
    registry.CompositesObey law := by
  intro typeName declared target operation answer
  obtain ⟨declaration, same⟩ := onlyEnums typeName _ answer
  cases same

end Registry

/-! ## Components of stored fields -/

namespace Storage

/-- What the storage refers to is bound, and the operation is the one selected
for the variant. -/
def BoundIn (types : Registry) (variant : Variant) : Storage → Prop
  | integer _ => True
  | enum declaration _ =>
      ∃ typeName, types.get? typeName = some (.enum declaration)
  | composite target operation =>
      ∃ typeName declared,
        types.get? typeName = some (.bound declared target) ∧
          target.contract.select variant = some operation

/-- The storage is an integer, a fair enum, or a lawful composite. -/
def Obeys (fair : EnumDecl → Prop) (law : Composite → Operation → Prop) :
    Storage → Prop
  | integer _ => True
  | enum declaration _ => fair declaration
  | composite target operation => law target operation

end Storage

theorem Field.StoredAs.boundIn
    {registry types : Registry} {variant : Variant} {field : Field}
    {stored : StoredField} (storedAs : field.StoredAs registry variant stored)
    (binds :
      ∀ typeName declaration,
        field.type = .named typeName →
          registry.get? typeName = some declaration →
            types.get? typeName = some declaration) :
    stored.storage.BoundIn types variant := by
  have found := storedAs.2
  unfold Field.storage? at found
  split at found
  · cases found
  · obtain ⟨type, _, same⟩ := Option.map_eq_some_iff.mp found
    rw [← same]
    trivial
  · next typeName named =>
      split at found
      · next declaration answer =>
          obtain ⟨type, _, same⟩ := Option.map_eq_some_iff.mp found
          rw [← same]
          exact ⟨typeName, binds typeName _ named answer⟩
      · next declared target answer =>
          obtain ⟨operation, selected, same⟩ := Option.map_eq_some_iff.mp found
          rw [← same]
          exact ⟨typeName, declared, binds typeName _ named answer, selected⟩
      · cases found
      · cases found

namespace RecordCodec

section Compiled

variable {schema : Schema} {registry : Registry} {options : GenerateOptions}
  {codec : RecordCodec} {operation : Operation} {variant : Variant}
  {fair : EnumDecl → Prop} {law : Composite → Operation → Prop}

/-- What the fields of a compiled record call on is bound. -/
theorem boundIn_of_compile
    (compiled : compile schema registry options = .ok codec)
    {stored : List StoredField}
    (storedFields :
      List.Forall₂ (Field.StoredAs registry variant) schema.fields stored) :
    ∀ made ∈ stored, made.storage.BoundIn codec.types variant := by
  intro made member
  have listed :=
    (List.forall₂_and_left schema.fields stored).mpr
      ⟨fun _ declared => declared, storedFields⟩
  obtain ⟨field, _, declared, storedAs⟩ :=
    exists_source_of_forall₂ listed member
  apply storedAs.boundIn
  intro typeName declaration named answer
  exact (binds_of_compile compiled declared named answer).1

/-- An operation of a compiled record runs like the cursor over fields that fit a
word or call on fair enums and lawful composites. -/
theorem lawfulRun_of_compile
    (compiled : compile schema registry options = .ok codec)
    (serves : codec.variant? operation = some variant)
    (enums : codec.types.EnumsAre fair)
    (components : codec.ComponentsObey law operation) :
    ∃ stored,
      List.Forall₂ (Field.StoredAs registry variant) schema.fields stored ∧
        codec.RunsLike operation variant.order stored ∧
          ∀ field ∈ stored,
            field.storage.Sized ∧ field.storage.Obeys fair law := by
  obtain ⟨stored, storedFields, runs⟩ := runsLike_of_compile compiled serves
  refine ⟨stored, storedFields, runs, ?_⟩
  intro made member
  obtain ⟨_, _, storedAs⟩ := exists_source_of_forall₂ storedFields member
  have boundIn := boundIn_of_compile compiled storedFields made member
  refine ⟨storedAs.sized, ?_⟩
  cases storage : made.storage with
  | integer type => trivial
  | enum declaration underlying =>
      rw [storage] at boundIn
      rcases boundIn with ⟨typeName, bound⟩
      exact enums typeName declaration bound
  | composite target selected =>
      rw [storage] at boundIn
      rcases boundIn with ⟨typeName, declared, bound, selects⟩
      exact components variant typeName declared target selected serves bound
        selects

theorem enumsAre_of_compile
    (compiled : compile schema registry options = .ok codec)
    (enums : registry.EnumsAre fair) :
    codec.types.EnumsAre fair :=
  fun typeName declaration bound =>
    enums typeName declaration
      (boundFrom_of_compile compiled typeName _ bound)

theorem componentsObey_of_compile
    (compiled : compile schema registry options = .ok codec)
    (composites : registry.CompositesObey law) (operation : Operation) :
    codec.ComponentsObey law operation :=
  fun _ typeName declared target selected _ bound selects =>
    composites typeName declared target selected
      (boundFrom_of_compile compiled typeName _ bound)
      (Contract.offers_of_select selects)

end Compiled

private theorem exists_variant_of_pair
    {codec : RecordCodec} {operation : Operation} {base : String}
    {pair : CodecPair} (calls : codec.pair operation base = .ok pair) :
    ∃ variant, codec.variant? operation = some variant := by
  rw [pair_eq_ok] at calls
  rw [variant?, calls]
  exact ⟨pair.variant, rfl⟩

theorem exists_variant_of_decode
    {codec : RecordCodec} {operation : Operation} {buffer : Bytes}
    {result : Record × Nat}
    (done : codec.decode operation buffer = .ok result) :
    ∃ variant, codec.variant? operation = some variant := by
  rw [decode, bind_eq_ok] at done
  rcases done with ⟨pair, calls, _⟩
  exact exists_variant_of_pair calls

theorem exists_variant_of_encode
    {codec : RecordCodec} {operation : Operation} {record : Record}
    {before after : Bytes} {count : Nat}
    (done : codec.encode operation record before = .ok count after) :
    ∃ variant, codec.variant? operation = some variant := by
  rw [encode, Writer.bind_eq_ok] at done
  rcases done with ⟨pair, between, calls, _⟩
  rw [Writer.ofExcept_eq_ok] at calls
  exact exists_variant_of_pair calls.1

end RecordCodec

/-! ## Catalogs -/

namespace Catalog

/-- The catalogs that grow from some declared types, one record at a time. -/
inductive Reached (start : Registry) : Catalog → Prop
  | start : Reached start { registry := start }
  | add {catalog : Catalog} (reached : Reached start catalog)
      (schema : Schema) (options : GenerateOptions) :
      Reached start (catalog.add schema options)

theorem reached_compile
    (start : Registry) (schemas : List Schema) (options : GenerateOptions) :
    Reached start (compile start schemas options) := by
  have grows :
      ∀ catalog, Reached start catalog →
        Reached start
          (schemas.foldl
            (fun catalog schema => catalog.add schema options) catalog) := by
    induction schemas with
    | nil => exact fun _ reached => reached
    | cons schema rest inductionHypothesis =>
        intro catalog reached
        exact inductionHypothesis _ (reached.add schema options)
  exact grows _ .start

/-- Every record of a catalog was compiled against an earlier catalog. -/
theorem Reached.compiled
    {start : Registry} {catalog : Catalog} (reached : Reached start catalog)
    {codec : RecordCodec} (member : codec ∈ catalog.codecs) :
    ∃ earlier schema options,
      Reached start earlier ∧
        earlier.codecs ⊆ catalog.codecs ∧
          RecordCodec.compile schema earlier.registry options = .ok codec := by
  induction reached with
  | start => cases member
  | @add catalog reached schema options inductionHypothesis =>
      unfold Catalog.add at member ⊢
      split at member
      · next made compiles =>
          have grown : catalog.codecs ⊆ catalog.codecs ++ [made] :=
            List.subset_append_left _ _
          rcases List.mem_append.mp member with earlierMember | last
          · obtain ⟨earlier, schema, options, reachedEarlier, included,
              compiled⟩ := inductionHypothesis earlierMember
            exact ⟨earlier, schema, options, reachedEarlier,
              List.Subset.trans included grown, compiled⟩
          · rw [List.mem_singleton.mp last]
            exact ⟨catalog, schema, options, reached, grown, compiles⟩
      · exact inductionHypothesis member

/-- A catalog declares no enums beside those it started from. -/
theorem Reached.enumsAre
    {fair : EnumDecl → Prop} {start : Registry} (enums : start.EnumsAre fair)
    {catalog : Catalog} (reached : Reached start catalog) :
    catalog.registry.EnumsAre fair := by
  induction reached with
  | start => exact enums
  | @add catalog _ schema options inductionHypothesis =>
      unfold Catalog.add
      split
      · intro typeName declaration answer
        simp only [Registry.get?_declare] at answer
        split at answer
        · cases answer
        · exact inductionHypothesis typeName declaration answer
      · exact inductionHypothesis

section Inherited

variable {fair : EnumDecl → Prop} {law : Composite → Operation → Prop}
  {property : Schema → Registry → RecordCodec → Operation → Prop}
  (inherits :
    ∀ {schema registry options codec},
      RecordCodec.compile schema registry options = .ok codec →
        codec.types.EnumsAre fair →
          ∀ operation,
            codec.ComponentsObey law operation →
              property schema registry codec operation ∧
                law codec.toComposite operation)
  {start : Registry} (enums : start.EnumsAre fair)
  (composites : start.CompositesObey law) {catalog : Catalog}
include inherits enums composites

/-- A law that compiled records inherit from their components holds for all
composites of a catalog, if it holds for those the catalog started from. -/
theorem Reached.lawful (reached : Reached start catalog) :
    catalog.registry.CompositesObey law := by
  induction reached with
  | start => exact composites
  | @add catalog reached schema options lawfulBefore =>
      unfold Catalog.add
      split
      · next codec compiles =>
          have enumsHere :=
            RecordCodec.enumsAre_of_compile compiles (reached.enumsAre enums)
          intro typeName declared target operation answer offered
          have components :=
            RecordCodec.componentsObey_of_compile compiles lawfulBefore
              operation
          simp only [Registry.get?_declare] at answer
          split at answer
          · cases answer
            exact (inherits compiles enumsHere operation components).2
          · exact lawfulBefore typeName declared target operation answer
              offered
      · exact lawfulBefore

/-- What compiled records have by lawful components, and the law itself, holds for
every record of such a catalog. -/
theorem Reached.inherited
    (reached : Reached start catalog)
    {codec : RecordCodec} (member : codec ∈ catalog.codecs) :
    ∃ earlier schema options,
      Reached start earlier ∧
        RecordCodec.compile schema earlier.registry options = .ok codec ∧
          ∀ operation,
            property schema earlier.registry codec operation ∧
              law codec.toComposite operation := by
  obtain ⟨earlier, schema, options, reachedEarlier, _, compiled⟩ :=
    reached.compiled member
  have enumsHere :=
    RecordCodec.enumsAre_of_compile compiled (reachedEarlier.enumsAre enums)
  have lawfulEarlier := reachedEarlier.lawful inherits enums composites
  refine ⟨earlier, schema, options, reachedEarlier, compiled, ?_⟩
  intro operation
  apply inherits compiled enumsHere operation
  exact RecordCodec.componentsObey_of_compile compiled lawfulEarlier operation

end Inherited

/-- Over enums alone nothing is left to assume of the composites that a catalog
starts from. -/
theorem Reached.inherited_of_enums
    {law : Composite → Operation → Prop}
    {property : RecordCodec → Operation → Prop}
    (inherits :
      ∀ {schema registry options codec},
        RecordCodec.compile schema registry options = .ok codec →
          ∀ operation,
            codec.ComponentsObey law operation →
              property codec operation ∧ law codec.toComposite operation)
    {start : Registry} (onlyEnums : start.OnlyEnums) {catalog : Catalog}
    (reached : Reached start catalog) :
    catalog.registry.CompositesObey law ∧
      ∀ codec ∈ catalog.codecs, ∀ operation,
        property codec operation ∧ law codec.toComposite operation := by
  have anyEnums :
      ∀ {schema registry options codec},
        RecordCodec.compile schema registry options = .ok codec →
          codec.types.EnumsAre (fun _ => True) →
            ∀ operation,
              codec.ComponentsObey law operation →
                property codec operation ∧ law codec.toComposite operation := by
    intro schema registry options codec compiled _ operation components
    exact inherits compiled operation components
  have enums : start.EnumsAre fun _ => True := fun _ _ _ => trivial
  have composites := onlyEnums.compositesObey law
  refine ⟨reached.lawful anyEnums enums composites, ?_⟩
  intro codec member
  obtain ⟨_, _, _, _, _, holds⟩ :=
    reached.inherited anyEnums enums composites member
  exact holds

end Catalog

theorem Drawing.get?_colours
    {typeName : String} {answer : TypeDecl}
    (found : colours.get? typeName = some answer) :
    answer = .enum colour := by
  rw [colours, Registry.get?_declare] at found
  split at found
  · cases found
    rfl
  · cases found

theorem Drawing.onlyEnums_colours : colours.OnlyEnums :=
  fun _ _ found => ⟨colour, get?_colours found⟩

end PackedRecord
