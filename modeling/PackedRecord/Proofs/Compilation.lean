import PackedRecord.Catalog
import PackedRecord.Proofs.FieldMeaning
import PackedRecord.Proofs.Storage

/-!
# What compiling yields

Compiling runs through checks, classification, planning and binding, each of
which may fail.  This module takes a compiled record apart once and for all: for
each operation that the record answers there is a layout whose placed fields
access exactly the stored fields of the schema, one behind the other.
-/

namespace PackedRecord

/-! ## Lists of results -/

private theorem forall₂_of_mapM
    {cause source target : Type} {step : source → Except cause target} :
    ∀ {sources : List source} {targets : List target},
      sources.mapM step = .ok targets →
        List.Forall₂ (fun item made => step item = .ok made) sources targets
  | [], targets, done => by
      rw [List.mapM_nil, pure_eq_ok] at done
      subst done
      exact List.Forall₂.nil
  | item :: rest, targets, done => by
      simp only [List.mapM_cons, bind_eq_ok, pure_eq_ok] at done
      rcases done with ⟨made, first, others, last, rfl⟩
      exact List.Forall₂.cons first (forall₂_of_mapM last)

theorem mapM_eq_ok_iff
    {cause source target : Type} {step : source → Except cause target}
    {sources : List source} {targets : List target} :
    sources.mapM step = .ok targets ↔
      List.Forall₂ (fun item made => step item = .ok made) sources targets := by
  constructor
  · exact forall₂_of_mapM
  · intro all
    induction all with
    | nil => rfl
    | cons first _ inductionHypothesis =>
        rw [List.mapM_cons, first, inductionHypothesis]
        rfl

theorem mapM_eq_some_iff
    {source target : Type} {step : source → Option target}
    {sources : List source} {targets : List target} :
    sources.mapM step = some targets ↔
      List.Forall₂ (fun item made => step item = some made) sources targets := by
  induction sources generalizing targets with
  | nil => simp [eq_comm]
  | cons item rest inductionHypothesis =>
      simp only [List.mapM_cons, Option.bind_eq_bind, Option.bind_eq_some_iff,
        Option.pure_def, Option.some.injEq, List.forall₂_cons_left_iff,
        inductionHypothesis]
      constructor
      · rintro ⟨made, first, others, behind, rfl⟩
        exact ⟨made, others, first, behind, rfl⟩
      · rintro ⟨made, others, first, behind, rfl⟩
        exact ⟨made, first, others, behind, rfl⟩

/-- A step over a list fails as the first item does at which it fails. -/
theorem mapM_eq_error_iff
    {cause source target : Type} {step : source → Except cause target}
    {items : List source} {failure : cause} :
    items.mapM step = .error failure ↔
      ∃ earlier item later,
        items = earlier ++ item :: later ∧
          (∀ other ∈ earlier, ∃ made, step other = .ok made) ∧
            step item = .error failure := by
  constructor
  · intro failed
    induction items with
    | nil =>
        rw [List.mapM_nil] at failed
        cases failed
    | cons item rest inductionHypothesis =>
        simp only [List.mapM_cons, bind_eq_error] at failed
        rcases failed with here | ⟨made, passed, inRest | ⟨_, _, absurdly⟩⟩
        · refine ⟨[], item, rest, rfl, ?_, here⟩
          intro other member
          cases member
        · obtain ⟨earlier, stopped, later, rfl, succeeded, failedThere⟩ :=
            inductionHypothesis inRest
          refine ⟨item :: earlier, stopped, later, rfl, ?_, failedThere⟩
          intro other member
          rcases List.mem_cons.mp member with rfl | inEarlier
          · exact ⟨made, passed⟩
          · exact succeeded other inEarlier
        · cases absurdly
  · rintro ⟨earlier, item, later, rfl, succeeded, failedThere⟩
    induction earlier with
    | nil =>
        rw [List.nil_append, List.mapM_cons, failedThere]
        rfl
    | cons first rest inductionHypothesis =>
        obtain ⟨made, passed⟩ := succeeded first List.mem_cons_self
        have failedRest :=
          inductionHypothesis fun other member =>
            succeeded other (List.mem_cons_of_mem _ member)
        rw [List.cons_append, List.mapM_cons, passed, failedRest]
        rfl

theorem exists_item_of_mapM_eq_error
    {cause source target : Type} {step : source → Except cause target}
    {items : List source} {failure : cause}
    (failed : items.mapM step = .error failure) :
    ∃ item ∈ items, step item = .error failure := by
  obtain ⟨earlier, item, later, rfl, _, failedThere⟩ :=
    mapM_eq_error_iff.mp failed
  exact ⟨item, List.mem_append_right _ List.mem_cons_self, failedThere⟩

theorem exists_source_of_forall₂
    {source target : Type} {related : source → target → Prop}
    {sources : List source} {targets : List target}
    (all : List.Forall₂ related sources targets)
    {made : target} (member : made ∈ targets) :
    ∃ item ∈ sources, related item made := by
  induction all with
  | nil => cases member
  | cons first _ inductionHypothesis =>
      rcases List.mem_cons.mp member with rfl | later
      · exact ⟨_, List.mem_cons_self, first⟩
      · obtain ⟨item, itemMember, fits⟩ := inductionHypothesis later
        exact ⟨item, List.mem_cons_of_mem _ itemMember, fits⟩

/-! ## Bound types -/

namespace RecordCodec

/-- Every bound declaration is what the registry answers. -/
def BoundFrom (types registry : Registry) : Prop :=
  ∀ typeName declaration,
    types.get? typeName = some declaration →
      registry.get? typeName = some declaration

section Bind

variable {record : String} {registry types later : Registry}

private theorem bindField_keeps
    {field : Field}
    (bound : bindField record registry types field = .ok later)
    (boundBefore : BoundFrom types registry) :
    BoundFrom later registry ∧
      ∀ typeName declaration,
        types.get? typeName = some declaration →
          later.get? typeName = some declaration := by
  unfold bindField at bound
  split at bound
  · next typeName _ =>
      split at bound
      · cases bound
        exact ⟨boundBefore, fun _ _ found => found⟩
      · cases bound
      · next declaration _ answer =>
          cases bound
          have named := Registry.name_of_get? answer
          constructor
          · intro other found
            rw [Registry.get?_declare]
            by_cases same : declaration.name = other
            · rw [if_pos same]
              rintro ⟨rfl⟩
              rw [← same, named]
              exact answer
            · rw [if_neg same]
              exact boundBefore other found
          · intro other found earlier
            rw [Registry.get?_declare]
            by_cases same : declaration.name = other
            · rw [if_pos same, ← answer, ← named, same]
              exact boundBefore other found earlier
            · rw [if_neg same]
              exact earlier
  · cases bound
    exact ⟨boundBefore, fun _ _ found => found⟩

private theorem bindField_binds
    {field : Field} {typeName : String} {declaration : TypeDecl}
    (bound : bindField record registry types field = .ok later)
    (named : field.type = .named typeName)
    (answer : registry.get? typeName = some declaration) :
    later.get? typeName = some declaration ∧
      ∀ name contract, declaration ≠ .contractOnly name contract := by
  have declared := Registry.name_of_get? answer
  unfold bindField at bound
  rw [named] at bound
  simp only [answer] at bound
  cases declaration with
  | contractOnly name contract => cases bound
  | enum declaration =>
      cases bound
      rw [Registry.get?_declare, if_pos declared]
      exact ⟨rfl, fun _ _ same => by cases same⟩
  | bound name target =>
      cases bound
      rw [Registry.get?_declare, if_pos declared]
      exact ⟨rfl, fun _ _ same => by cases same⟩

private theorem bindFields_keeps
    {fields : List Field}
    (bound : fields.foldlM (bindField record registry) types = .ok later)
    (boundBefore : BoundFrom types registry) :
    BoundFrom later registry ∧
      ∀ typeName declaration,
        types.get? typeName = some declaration →
          later.get? typeName = some declaration := by
  induction fields generalizing types with
  | nil =>
      rw [List.foldlM_nil, pure_eq_ok] at bound
      subst bound
      exact ⟨boundBefore, fun _ _ found => found⟩
  | cons field rest inductionHypothesis =>
      rw [List.foldlM_cons, bind_eq_ok] at bound
      rcases bound with ⟨between, first, others⟩
      obtain ⟨betweenFrom, kept⟩ := bindField_keeps first boundBefore
      obtain ⟨laterFrom, keptLater⟩ := inductionHypothesis others betweenFrom
      exact ⟨laterFrom, fun typeName declaration found =>
        keptLater typeName declaration (kept typeName declaration found)⟩

private theorem bindFields_binds
    {fields : List Field} {field : Field} {typeName : String}
    {declaration : TypeDecl}
    (bound : fields.foldlM (bindField record registry) types = .ok later)
    (boundBefore : BoundFrom types registry) (member : field ∈ fields)
    (named : field.type = .named typeName)
    (answer : registry.get? typeName = some declaration) :
    later.get? typeName = some declaration ∧
      ∀ name contract, declaration ≠ .contractOnly name contract := by
  induction fields generalizing types with
  | nil => cases member
  | cons first rest inductionHypothesis =>
      rw [List.foldlM_cons, bind_eq_ok] at bound
      rcases bound with ⟨between, firstBound, others⟩
      have betweenFrom := (bindField_keeps firstBound boundBefore).1
      rcases List.mem_cons.mp member with rfl | inRest
      · obtain ⟨found, runs⟩ := bindField_binds firstBound named answer
        exact ⟨(bindFields_keeps others betweenFrom).2 _ _ found, runs⟩
      · exact inductionHypothesis others betweenFrom inRest

end Bind

end RecordCodec

/-! ## Placed fields and stored fields -/

/-- An access goes to a storage: the declarations that it names are those of the
storage, its integers have the given order, and the length it reports has the
given index. -/
inductive Access.Reaches (types : Registry) (order : ByteOrder) (next : Nat) :
    Access → Storage → Prop
  | integer (type : IntegerType) :
      Reaches types order next (.integer type order) (.integer type)
  | byte (signed : Bool) :
      Reaches types order next (.byte signed) (.integer (.byte signed))
  | enum {declaration : EnumDecl} (underlying : IntegerType)
      (found :
        types.get? declaration.name = some (.enum declaration)) :
      Reaches types order next
        (.enum declaration.name underlying order)
        (.enum declaration underlying)
  | composite {typeName declared : String} {target : Composite}
      (operation : Operation)
      (found : types.get? typeName = some (.bound declared target)) :
      Reaches types order next
        (.composite typeName operation { index := next })
        (.composite target operation)

/-- Placed fields access stored fields one behind the other, from an offset to
an offset. -/
inductive Layout.Places (types : Registry) (order : ByteOrder) :
    Offset → List PlacedField → List StoredField → Offset → Prop
  | nil (start : Offset) : Places types order start [] [] start
  | cons {start stop : Offset} {access : Access} {storage : Storage}
      {placed : List PlacedField} {stored : List StoredField} (name : String)
      (reaches : access.Reaches types order start.lengths.length storage)
      (rest : Places types order (start.after access.width) placed stored stop) :
      Places types order start
        ({ name, access, offset := start } :: placed)
        ({ name, storage } :: stored) stop

/-- Placing fields places the first and goes on behind it. -/
theorem Layout.placeFrom_cons_eq_ok
    {add : Nat → Nat → Nat} {record : String} {variant : Variant}
    {start stop : Offset} {field : ClassifiedField} {rest : List ClassifiedField}
    {placed : List PlacedField} :
    placeFrom add record variant start (field :: rest) = .ok (placed, stop) ↔
      ∃ reached others,
        access record variant start.lengths.length field = .ok reached ∧
          placeFrom add record variant (start.past add reached.width) rest =
              .ok (others, stop) ∧
            placed =
              { name := field.name, access := reached, offset := start } ::
                others := by
  simp only [placeFrom, bind_eq_ok, pure_eq_ok, Prod.exists, Prod.mk.injEq]
  constructor
  · rintro ⟨reached, accessed, others, last, behind, rfl, rfl⟩
    exact ⟨reached, others, accessed, behind, rfl⟩
  · rintro ⟨reached, others, accessed, behind, rfl⟩
    exact ⟨reached, accessed, others, stop, behind, rfl, rfl⟩

section Placing

variable {record : String} {registry types : Registry}
  {variants : List Variant} {variant : Variant}

private theorem Field.reaches_of_classify
    {field : Field} {kind : FieldKind} {name : String} {access : Access}
    {next : Nat}
    (classified : field.classify record registry variants = .ok kind)
    (accessed :
      Layout.access record variant next { name, kind } = .ok access)
    (binds :
      ∀ typeName declaration,
        field.type = .named typeName →
          registry.get? typeName = some declaration →
            types.get? typeName = some declaration ∧
              ∀ name contract, declaration ≠ .contractOnly name contract) :
    ∃ storage,
      field.storage? registry variant = some storage ∧
        access.Reaches types variant.order next storage := by
  have means := Field.classify_eq_ok_iff.mp classified
  generalize type : field.type = declared at means
  cases means with
  | @byte scalar signed stored =>
      cases accessed
      refine ⟨.integer (.byte signed), ?_, .byte signed⟩
      simp only [storage?, type, stored, Option.map_some]
  | @integer scalar integer stored wide =>
      cases accessed
      refine ⟨.integer integer, ?_, .integer integer⟩
      simp only [storage?, type, stored, Option.map_some]
  | @enum typeName declaration underlying found stored =>
      obtain ⟨bound, _⟩ := binds typeName _ type found
      obtain rfl : declaration.name = typeName := Registry.name_of_get? found
      cases accessed
      refine ⟨.enum declaration underlying, ?_, .enum underlying bound⟩
      simp only [storage?, type, found, stored, Option.map_some]
  | @composite typeName declaration contract found offered usable =>
      obtain ⟨bound, runs⟩ := binds typeName _ type found
      cases declaration with
      | enum declaration => cases offered
      | contractOnly name contract => exact absurd rfl (runs name contract)
      | bound name target =>
          cases offered
          simp only [Layout.access] at accessed
          cases selected : target.contract.select variant with
          | none =>
              rw [selected] at accessed
              cases accessed
          | some operation =>
              rw [selected] at accessed
              cases accessed
              refine
                ⟨.composite target operation, ?_, .composite operation bound⟩
              simp only [storage?, type, found, selected, Option.map_some]

private theorem Layout.places_of_placeFrom
    {fields : List Field} {classified : List ClassifiedField}
    {start stop : Offset} {placed : List PlacedField}
    (kinds :
      List.Forall₂
        (fun field made =>
          made.name = field.name ∧
            field.classify record registry variants = .ok made.kind)
        fields classified)
    (places :
      Layout.placeFrom (· + ·) record variant start classified =
        .ok (placed, stop))
    (binds :
      ∀ field ∈ fields, ∀ typeName declaration,
        field.type = .named typeName →
          registry.get? typeName = some declaration →
            types.get? typeName = some declaration ∧
              ∀ name contract, declaration ≠ .contractOnly name contract) :
    ∃ stored,
      List.Forall₂ (Field.StoredAs registry variant) fields stored ∧
        Layout.Places types variant.order start placed stored stop := by
  induction kinds generalizing start placed with
  | nil =>
      cases places
      exact ⟨[], List.Forall₂.nil, .nil _⟩
  | @cons field made fields classified first _ inductionHypothesis =>
      obtain ⟨access, others, accessed, rest, rfl⟩ :=
        placeFrom_cons_eq_ok.mp places
      obtain ⟨storage, found, reaches⟩ :=
        Field.reaches_of_classify first.2 accessed
          (binds field List.mem_cons_self)
      obtain ⟨stored, storedFields, placesRest⟩ :=
        inductionHypothesis rest fun other member =>
          binds other (List.mem_cons_of_mem _ member)
      exact ⟨{ name := made.name, storage } :: stored,
        List.Forall₂.cons ⟨first.1, found⟩ storedFields,
        .cons made.name reaches placesRest⟩

end Placing

/-! ## The layout behind an operation -/

private theorem Schema.names_of_misnamedField?
    {fields : List Field} {taken : List String}
    (passed : Schema.misnamedField? taken fields = none) :
    (fields.map Field.name).Nodup ∧
      ∀ field ∈ fields, Source.localName field.name ∉ taken := by
  induction fields generalizing taken with
  | nil => exact ⟨List.nodup_nil, fun _ member => by cases member⟩
  | cons field rest inductionHypothesis =>
      unfold Schema.misnamedField? at passed
      split at passed
      · next usable =>
          obtain ⟨restNodup, restFree⟩ := inductionHypothesis passed
          constructor
          · rw [List.map_cons, List.nodup_cons]
            refine ⟨?_, restNodup⟩
            intro repeated
            obtain ⟨other, member, same⟩ := List.mem_map.mp repeated
            apply restFree other member
            rw [same]
            exact List.mem_cons_self
          · intro other member
            rcases List.mem_cons.mp member with rfl | later
            · exact usable.2
            · intro inTaken
              exact restFree other later (List.mem_cons_of_mem _ inTaken)
      · cases passed

theorem Schema.forall₂_of_classify
    {schema : Schema} {registry : Registry} {variants : List Variant}
    {classified : List ClassifiedField}
    (kinds : schema.classify registry variants = .ok classified) :
    List.Forall₂
      (fun (field : Field) (made : ClassifiedField) =>
        made.name = field.name ∧
          field.classify schema.name registry variants = .ok made.kind)
      schema.fields classified := by
  refine (forall₂_of_mapM kinds).imp fun field made one => ?_
  simp only [bind_eq_ok, pure_eq_ok] at one
  rcases one with ⟨kind, classifies, rfl⟩
  exact ⟨rfl, classifies⟩

/-- No two variants of a schema have the same operation. -/
theorem Schema.find?_variants_eq_some_iff
    {schema : Schema} {variants : List Variant}
    (directed : schema.variants = .ok variants)
    {operation : Operation} {variant : Variant} :
    (variants.find? fun variant => variant.operation == operation) =
        some variant ↔
      variant ∈ variants ∧ variant.operation = operation := by
  rcases variant with ⟨order, suffixed⟩
  unfold Schema.variants at directed
  split at directed <;> cases directed <;>
    rcases operation with _ | _ | _ <;> cases order <;> cases suffixed <;>
    decide

namespace RecordCodec

/-- The variant that an operation calls. -/
def variant? (codec : RecordCodec) (operation : Operation) : Option Variant :=
  (codec.generated.pair? operation).map CodecPair.variant

theorem pair_eq_ok
    {codec : RecordCodec} {operation : Operation} {base : String}
    {pair : CodecPair} :
    codec.pair operation base = .ok pair ↔
      codec.generated.pair? operation = some pair := by
  unfold RecordCodec.pair
  cases codec.generated.pair? operation <;> simp

private theorem variant_of_generatePair
    {schema : Schema} {fields : List ClassifiedField}
    {options : GenerateOptions} {variant : Variant} {pair : CodecPair}
    (generates : schema.generatePair fields options variant = .ok pair) :
    pair.variant = variant := by
  simp only [Schema.generatePair, Layout.plan, Layout.layOut, bind_eq_ok, pure_eq_ok,
    Prod.exists] at generates
  rcases generates with ⟨layout, ⟨placed, total, places, rfl⟩, rfl⟩
  rfl

private theorem find?_operation
    {variants : List Variant} {pairs : List CodecPair}
    (each :
      List.Forall₂ (fun (variant : Variant) pair => pair.variant = variant)
        variants pairs)
    {operation : Operation} :
    (variants.find? fun variant => variant.operation == operation) =
      (pairs.find? fun pair => pair.variant.operation == operation).map
        CodecPair.variant := by
  induction each with
  | nil => rfl
  | @cons variant pair _ _ first _ inductionHypothesis =>
      rw [List.find?_cons, List.find?_cons, first, inductionHypothesis]
      cases variant.operation == operation with
      | true => exact congrArg some first.symm
      | false => rfl

section Compiled

variable {schema : Schema} {registry : Registry} {options : GenerateOptions}
  {codec : RecordCodec}

theorem parts_of_compile
    (compiled : compile schema registry options = .ok codec) :
    ∃ variants classified,
      schema.checkFieldNames = .ok () ∧
        schema.variants = .ok variants ∧
          schema.classify registry variants = .ok classified ∧
            variants.mapM (schema.generatePair classified options) =
              .ok codec.generated.codecs ∧
            schema.fields.foldlM (bindField schema.name registry) .empty =
              .ok codec.types ∧
            codec.name = schema.name := by
  simp only [compile, bind_eq_ok, pure_eq_ok] at compiled
  rcases compiled with ⟨generated, generates, types, binds, rfl⟩
  unfold Schema.generate at generates
  split at generates
  · simp only [bind_eq_ok, pure_eq_ok] at generates
    obtain ⟨_, names, variants, directives, classified, kinds, codecs, pairs,
      rfl⟩ := generates
    exact ⟨variants, classified, names, directives, kinds, pairs, binds, rfl⟩
  · cases generates

theorem name_of_compile
    (compiled : compile schema registry options = .ok codec) :
    codec.name = schema.name := by
  obtain ⟨_, _, _, _, _, _, _, named⟩ := parts_of_compile compiled
  exact named

/-- The operation of each of a schema's variants calls that variant, and no other
operation calls one. -/
theorem variant?_eq_some_iff
    (compiled : compile schema registry options = .ok codec)
    {variants : List Variant} (directed : schema.variants = .ok variants)
    {operation : Operation} {variant : Variant} :
    codec.variant? operation = some variant ↔
      variant ∈ variants ∧ variant.operation = operation := by
  obtain ⟨found, classified, _, directedHere, _, pairs, _⟩ :=
    parts_of_compile compiled
  obtain rfl : variants = found :=
    Except.ok.inj (directed.symm.trans directedHere)
  have each :
      List.Forall₂ (fun (variant : Variant) pair => pair.variant = variant)
        variants codec.generated.codecs :=
    (forall₂_of_mapM pairs).imp fun _ _ => variant_of_generatePair
  rw [variant?, Generated.pair?, ← find?_operation each]
  exact Schema.find?_variants_eq_some_iff directed

/-- The fields of a compiled record have different names. -/
theorem nodup_names_of_compile
    (compiled : compile schema registry options = .ok codec) :
    (schema.fields.map Field.name).Nodup := by
  obtain ⟨_, _, names, _⟩ := parts_of_compile compiled
  unfold Schema.checkFieldNames at names
  split at names
  · cases names
  · next passed => exact (Schema.names_of_misnamedField? passed).1

theorem boundFrom_of_compile
    (compiled : compile schema registry options = .ok codec) :
    BoundFrom codec.types registry := by
  obtain ⟨_, _, _, _, _, _, binds, _⟩ := parts_of_compile compiled
  exact (bindFields_keeps binds fun _ _ found => by cases found).1

theorem binds_of_compile
    (compiled : compile schema registry options = .ok codec)
    {field : Field} (member : field ∈ schema.fields)
    {typeName : String} {declaration : TypeDecl}
    (named : field.type = .named typeName)
    (answer : registry.get? typeName = some declaration) :
    codec.types.get? typeName = some declaration ∧
      ∀ name contract, declaration ≠ .contractOnly name contract := by
  obtain ⟨_, _, _, _, _, _, binds, _⟩ := parts_of_compile compiled
  exact bindFields_binds binds (fun _ _ found => by cases found) member named
    answer

/-- Every pair of a record is emitted from a layout of the classified fields. -/
theorem layout_of_pair
    (compiled : compile schema registry options = .ok codec)
    {variants : List Variant} (directed : schema.variants = .ok variants)
    {classified : List ClassifiedField}
    (kinds : schema.classify registry variants = .ok classified)
    {pair : CodecPair} (member : pair ∈ codec.generated.codecs) :
    ∃ variant ∈ variants, ∃ placed total,
      Layout.placeFrom (· + ·) schema.name variant {} classified =
          .ok (placed, total) ∧
        pair =
          Layout.emit
            { record := schema.name, variant, fields := placed, total }
            options.naming := by
  obtain ⟨found, others, _, directedHere, kindsHere, pairs, _⟩ :=
    parts_of_compile compiled
  cases directed.symm.trans directedHere
  cases kinds.symm.trans kindsHere
  obtain ⟨variant, listed, generates⟩ :=
    exists_source_of_forall₂ (forall₂_of_mapM pairs) member
  simp only [Schema.generatePair, Layout.plan, Layout.layOut, bind_eq_ok, pure_eq_ok,
    Prod.exists] at generates
  obtain ⟨layout, ⟨placed, total, places, made⟩, same⟩ := generates
  rw [← made] at same
  exact ⟨variant, listed, placed, total, places, same.symm⟩

/-- The procedures that an operation calls are those of a layout that places the
schema's fields as they are stored in the operation's variant. -/
theorem layout_of_compile
    (compiled : compile schema registry options = .ok codec)
    {operation : Operation} {variant : Variant}
    (serves : codec.variant? operation = some variant) :
    ∃ pair placed stored total,
      codec.generated.pair? operation = some pair ∧
        List.Forall₂ (Field.StoredAs registry variant) schema.fields stored ∧
          Layout.Places codec.types variant.order {} placed stored total ∧
            pair =
              Layout.emit
                { record := schema.name, variant, fields := placed, total }
                options.naming := by
  obtain ⟨variants, classified, _, directed, kinds, _⟩ :=
    parts_of_compile compiled
  obtain ⟨pair, answers, called⟩ := Option.map_eq_some_iff.mp serves
  have member : pair ∈ codec.generated.codecs :=
    List.mem_of_find?_eq_some answers
  obtain ⟨planned, _, placed, total, places, same⟩ :=
    layout_of_pair compiled directed kinds member
  have sameVariant : planned = variant := by
    rw [← called, same]
    rfl
  rw [sameVariant] at places same
  obtain ⟨stored, storedFields, placesStored⟩ :=
    Layout.places_of_placeFrom (Schema.forall₂_of_classify kinds) places
      fun field fieldMember typeName declaration =>
        binds_of_compile compiled fieldMember
  exact ⟨pair, placed, stored, total, answers, storedFields, placesStored, same⟩

end Compiled

end RecordCodec

/-! ## Static sizes -/

/-- The room that a field of the kind is known to take without data. -/
def FieldKind.staticWidth : FieldKind → Nat
  | integer type => type.width
  | byte _ => 1
  | enum _ underlying => underlying.width
  | composite _ _ => 0

/-- The width of a field of the kind, when so many composites stand before it. -/
def FieldKind.width (next : Nat) (kind : FieldKind) : Width :=
  match kind.staticWidth? with
  | some bytes => .static bytes
  | none => .reported { index := next }

theorem Layout.width_of_access
    {record : String} {variant : Variant} {next : Nat}
    {field : ClassifiedField} {access : Access}
    (accessed : Layout.access record variant next field = .ok access) :
    access.width = field.kind.width next := by
  unfold Layout.access at accessed
  cases kind : field.kind with
  | composite name contract =>
      simp only [kind] at accessed
      split at accessed <;> cases accessed
      rfl
  | _ =>
      simp only [kind] at accessed
      cases accessed
      rfl

theorem Offset.base_past (offset : Offset) (kind : FieldKind) (next : Nat) :
    (offset.past (· + ·) (kind.width next)).base =
      offset.base + kind.staticWidth := by
  cases kind <;> rfl

private theorem Layout.base_of_placeFrom
    {record : String} {variant : Variant} {fields : List ClassifiedField}
    {start stop : Offset} {placed : List PlacedField}
    (places :
      Layout.placeFrom (· + ·) record variant start fields =
        .ok (placed, stop)) :
    stop.base =
      start.base + (fields.map fun field => field.kind.staticWidth).sum := by
  induction fields generalizing start placed with
  | nil =>
      cases places
      rfl
  | cons field rest inductionHypothesis =>
      obtain ⟨access, others, accessed, placesRest, _⟩ :=
        placeFrom_cons_eq_ok.mp places
      rw [inductionHypothesis placesRest, width_of_access accessed,
        Offset.base_past, List.map_cons, List.sum_cons, Nat.add_assoc]

/-- The static size of a compiled record is the same in all of its variants. -/
theorem RecordCodec.staticSize_eq_of_compile
    {schema : Schema} {registry : Registry} {options : GenerateOptions}
    {codec : RecordCodec}
    (compiled : compile schema registry options = .ok codec)
    {pair other : CodecPair} (member : pair ∈ codec.generated.codecs)
    (otherMember : other ∈ codec.generated.codecs) :
    pair.staticSize = other.staticSize := by
  obtain ⟨variants, classified, _, directed, kinds, _⟩ :=
    parts_of_compile compiled
  have sized :
      ∀ one ∈ codec.generated.codecs,
        one.staticSize =
          (classified.map fun field => field.kind.staticWidth).sum := by
    intro one oneMember
    obtain ⟨variant, _, placed, total, places, same⟩ :=
      layout_of_pair compiled directed kinds oneMember
    have base := Layout.base_of_placeFrom places
    rw [Nat.zero_add] at base
    rw [same]
    exact base
  rw [sized pair member, sized other otherMember]

/-! ## A record inside a record -/

namespace Drawing

/-- An enum in which two names share a discriminant. -/
def colour : EnumDecl :=
  { name := "Colour"
    representation := .i8
    variants := [("red", -1), ("green", 4), ("crimson", -1)] }

def colours : Registry :=
  Registry.empty.declare (.enum colour)

def point : Schema :=
  (Schema.builder "Point").withFields
    [("x", .primitive .i16), ("colour", .named "Colour")]

/-- A record with a nested one between two fields of its own. -/
def line : Schema :=
  (Schema.builder "Line").withFields
    [("dashed", .primitive .u8), ("start", .named "Point"),
      ("length", .primitive .u16)]

def points : Catalog :=
  Catalog.compile colours [point] {}

def lines : Catalog :=
  Catalog.compile colours [point, line] {}

example : lines.records = ["Point", "Line"] := by
  rfl

theorem exists_codec_of_line :
    ∃ codec, RecordCodec.compile line points.registry {} = .ok codec :=
  ⟨_, rfl⟩

/-- A value of the record with the nested one, its fields in another order. -/
def greenLine : Record :=
  [("length", .signed 258),
    ("start", .record [("colour", .text "green"), ("x", .signed (-2))]),
    ("dashed", .unsigned 1)]

end Drawing

end PackedRecord
