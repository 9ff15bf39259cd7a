import PackedRecord.Proofs.BundleCatalog
import PackedRecord.Proofs.TypeText

/-!
# The parts of a bundle

A bundle is taken apart into a registry of its enums and the schemas of its records, or it
is refused for one reason: a name that is declared twice, wherever it stands, before any
representation that is no scalar's name.

What a bundle describes is said here entry by entry, without the folds that declare the
enums.  The registry is compared with it by what it answers, the schemas one by one.
-/

namespace PackedRecord

open Text

/-! ## Texts between blanks -/

namespace Text

/-- Trimming leaves what stands between blanks. -/
theorem trim_eq_iff {text core : List Char} (trimmed : Trimmed core) :
    trim text = core ↔
      ∃ before after,
        text = before ++ (core ++ after) ∧
          (∀ character ∈ before, isBlank character = true) ∧
            ∀ character ∈ after, isBlank character = true := by
  constructor
  · rintro rfl
    refine
      ⟨text.takeWhile isBlank, (trimStart text).rtakeWhile isBlank, ?_,
        fun _ => List.mem_takeWhile_imp, fun _ => List.mem_rtakeWhile_imp⟩
    rw [trim, trimEnd_eq_rdropWhile, List.rdropWhile_append_rtakeWhile,
      trimStart, List.takeWhile_append_dropWhile]
  · rintro ⟨before, after, rfl, blankBefore, blankAfter⟩
    exact trim_of_blanks_around blankBefore trimmed blankAfter

end Text

/-! ## Described enums and records -/

/-- The representation of the enum is the name of the scalar, with nothing around it but
blanks. -/
def EnumDef.StoredAs (enum : EnumDef) (scalar : Primitive) : Prop :=
  ∃ before after,
    enum.representation.toList = before ++ (scalar.name.toList ++ after) ∧
      (∀ character ∈ before, isBlank character = true) ∧
        ∀ character ∈ after, isBlank character = true

/-- The declaration says of the enum what its description says: the variants in order,
with their names and values. -/
structure EnumDef.DeclaredAs (enum : EnumDef) (declaration : EnumDecl) : Prop where
  name : declaration.name = enum.name
  stored : enum.StoredAs declaration.representation
  variants :
    List.Forall₂
      (fun described declared =>
        declared = (described.name, described.value.toInt))
      enum.variants declaration.variants

/-- The schema says of the record what its description says: the fields in order,
numbered from zero on, with their names and what their types are read as. -/
structure RecordDef.DescribedBy (record : RecordDef) (schema : Schema) : Prop where
  name : schema.name = record.name
  augmentable : schema.augmentable = true
  little : schema.directives.littleEndian = record.littleEndian
  big : schema.directives.bigEndian = record.bigEndian
  numbered :
    schema.fields.map Field.ordinal = List.range record.fields.length
  names : schema.fields.map Field.name = record.fields.map FieldDef.name
  types :
    schema.fields.map Field.type =
      record.fields.map fun field => TypeRef.parse field.type

/-- The registry answers for the enums, each under its name, and for nothing else. -/
def Registry.AnswersExactly (registry : Registry) (enums : List EnumDef) : Prop :=
  ∀ name answer,
    registry.get? name = some answer ↔
      ∃ enum ∈ enums,
        enum.name = name ∧
          ∃ declaration, enum.DeclaredAs declaration ∧ answer = .enum declaration

namespace Bundle

/-- The reason for which a bundle is refused: the first name that an earlier one of the
enums and records has already, or else the first enum whose representation is no
scalar. -/
inductive Refused (bundle : Bundle) : DefinitionError → Prop
  | repeated {earlier later : List String} {name : String}
      (split : bundle.names = earlier ++ name :: later)
      (distinct : earlier.Nodup) (again : name ∈ earlier) :
      Refused bundle (.duplicateType name)
  | unstorable {earlier later : List EnumDef} {enum : EnumDef}
      (distinct : bundle.names.Nodup)
      (split : bundle.enums = earlier ++ enum :: later)
      (storable : ∀ other ∈ earlier, ∃ scalar, other.StoredAs scalar)
      (unknown : ∀ scalar, ¬ enum.StoredAs scalar) :
      Refused bundle
        (.unknownRepresentation enum.name enum.representation)

end Bundle

/-! ## Names -/

namespace Bundle

theorem repeated?_eq_some_iff {seen names : List String} {name : String} :
    repeated? seen names = some name ↔
      ∃ earlier later,
        names = earlier ++ name :: later ∧
          (earlier.Nodup ∧ ∀ other ∈ earlier, other ∉ seen) ∧
            (name ∈ seen ∨ name ∈ earlier) := by
  induction names generalizing seen with
  | nil => simp [repeated?]
  | cons first rest inductionHypothesis =>
      rw [repeated?]
      by_cases repeats : first ∈ seen
      · rw [if_pos repeats]
        constructor
        · rintro ⟨⟩
          exact
            ⟨[], rest, rfl, ⟨List.nodup_nil, List.forall_mem_nil _⟩,
              Or.inl repeats⟩
        · rintro ⟨earlier, later, split, ⟨_, unseen⟩, _⟩
          cases earlier with
          | nil => rw [(List.cons.inj split).1]
          | cons other between =>
              rw [(List.cons.inj split).1] at repeats
              exact absurd repeats (unseen other List.mem_cons_self)
      · rw [if_neg repeats, inductionHypothesis]
        constructor
        · rintro ⟨earlier, later, rfl, ⟨distinct, unseen⟩, again⟩
          have alone : first ∉ earlier := fun member =>
            unseen first member List.mem_cons_self
          refine ⟨first :: earlier, later, rfl, ⟨?_, ?_⟩, ?_⟩
          · exact List.nodup_cons.mpr ⟨alone, distinct⟩
          · refine List.forall_mem_cons.mpr ⟨repeats, fun other member inSeen => ?_⟩
            exact unseen other member (List.mem_cons_of_mem _ inSeen)
          · simpa [or_assoc, or_left_comm] using again
        · rintro ⟨earlier, later, split, ⟨distinct, unseen⟩, again⟩
          cases earlier with
          | nil =>
              rw [(List.cons.inj split).1] at repeats
              simp [repeats] at again
          | cons other between =>
              obtain ⟨rfl, rfl⟩ := List.cons.inj split
              obtain ⟨alone, betweenDistinct⟩ := List.nodup_cons.mp distinct
              refine ⟨between, later, rfl, ⟨betweenDistinct, ?_⟩, ?_⟩
              · intro other member
                rw [List.mem_cons, not_or]
                refine ⟨?_, unseen other (List.mem_cons_of_mem _ member)⟩
                rintro rfl
                exact alone member
              · simpa [or_assoc, or_left_comm] using again

private theorem parts_of_repeated
    {bundle : Bundle} {name : String}
    (repeats : repeated? [] bundle.names = some name) :
    bundle.parts = .error (.duplicateType name) := by
  rw [parts, repeats]

end Bundle

/-! ## Enums -/

private theorem Primitive.trimmed_name (scalar : Primitive) :
    Trimmed scalar.name.toList := by
  have unchanged : trim scalar.name.toList = scalar.name.toList := by
    cases scalar <;> rfl
  rw [← unchanged]
  exact trimmed_trim _

namespace EnumDef

variable {enum : EnumDef}

theorem storedAs_iff {scalar : Primitive} :
    enum.StoredAs scalar ↔
      Primitive.ofName? (String.ofList (trim enum.representation.toList)) =
        some scalar := by
  rw [StoredAs, ← trim_eq_iff scalar.trimmed_name]
  constructor
  · intro trimmed
    rw [trimmed, String.ofList_toList, Primitive.ofName?_name]
  · intro found
    rw [Primitive.name_of_ofName? found, String.toList_ofList]

theorem declaration_eq_ok_iff {declaration : EnumDecl} :
    enum.declaration = .ok declaration ↔ enum.DeclaredAs declaration := by
  have variants :
      List.Forall₂
          (fun (described : VariantDef) declared =>
            declared = (described.name, described.value.toInt))
          enum.variants declaration.variants ↔
        enum.variants.map (fun variant => (variant.name, variant.value.toInt)) =
          declaration.variants := by
    rw [← List.forall₂_eq_eq_eq, List.forall₂_map_left_iff]
    simp only [eq_comm]
  obtain ⟨name, representation, declared⟩ := declaration
  constructor
  · intro done
    simp only [EnumDef.declaration] at done
    split at done
    · next found =>
        cases done
        exact ⟨rfl, storedAs_iff.mpr found, variants.mpr rfl⟩
    · cases done
  · rintro ⟨rfl, stored, same⟩
    rw [EnumDef.declaration, storedAs_iff.mp stored, variants.mp same]

theorem declaration_eq_error_iff {cause : DefinitionError} :
    enum.declaration = .error cause ↔
      (∀ scalar, ¬ enum.StoredAs scalar) ∧
        cause = .unknownRepresentation enum.name enum.representation := by
  simp only [storedAs_iff, EnumDef.declaration]
  cases Primitive.ofName? (String.ofList (trim enum.representation.toList)) with
  | none => simp [eq_comm]
  | some representation => simp

theorem exists_declaration_iff :
    (∃ declaration, enum.declaration = .ok declaration) ↔
      ∃ scalar, enum.StoredAs scalar := by
  cases described : enum.declaration with
  | error cause =>
      have unknown := (declaration_eq_error_iff.mp described).1
      simp [unknown]
  | ok declaration =>
      have stored := (declaration_eq_ok_iff.mp described).stored
      simp only [Except.ok.injEq, exists_eq', true_iff]
      exact ⟨_, stored⟩

end EnumDef

/-! ## Records -/

theorem RecordDef.describedBy_schema (record : RecordDef) :
    record.DescribedBy record.schema := by
  let declared :=
    record.fields.map fun field => (field.name, TypeRef.parse field.type)
  have fields :
      record.schema.fields.map (fun field => (field.name, field.type)) =
        declared :=
    Schema.declared_withFields (.builder record.name) declared
  have counted := congrArg List.length fields
  have named := congrArg (List.map Prod.fst) fields
  have typed := congrArg (List.map Prod.snd) fields
  rw [List.length_map, List.length_map] at counted
  rw [List.map_map, List.map_map] at named typed
  refine
    { name := record.name_schema
      augmentable :=
        congrArg Schema.augmentable (Schema.withFields_frame _ declared)
      little := rfl
      big := rfl
      numbered := ?_
      names := named
      types := typed }
  rw [← counted]
  exact (Schema.numbered_builder record.name).withFields declared

/-! ## The registry of the enums -/

namespace Bundle

/-- Declaring the enums is declaring what each is declared as. -/
private theorem foldlM_declareEnum (enums : List EnumDef) (registry : Registry) :
    enums.foldlM declareEnum registry =
      (do
        let declarations ← enums.mapM EnumDef.declaration
        return declarations.foldl
          (fun registry declaration => registry.declare (.enum declaration))
          registry) := by
  induction enums generalizing registry with
  | nil => rfl
  | cons enum rest inductionHypothesis =>
      rw [List.foldlM_cons, List.mapM_cons, declareEnum]
      cases enum.declaration with
      | error cause => rfl
      | ok declaration =>
          show rest.foldlM declareEnum _ = _
          rw [inductionHypothesis]
          cases rest.mapM EnumDef.declaration with
          | error cause => rfl
          | ok declarations => rfl

/-- If the names of the declarations differ, the registry answers with each of them. -/
private theorem get?_foldl_declare
    {declarations : List EnumDecl} (distinct : (declarations.map EnumDecl.name).Nodup)
    (registry : Registry) {name : String} {answer : TypeDecl} :
    (declarations.foldl
            (fun registry declaration => registry.declare (.enum declaration))
            registry).get? name =
        some answer ↔
      (∃ declaration ∈ declarations,
          declaration.name = name ∧ answer = .enum declaration) ∨
        name ∉ declarations.map EnumDecl.name ∧
          registry.get? name = some answer := by
  induction declarations generalizing registry with
  | nil => simp
  | cons first rest inductionHypothesis =>
      obtain ⟨alone, restDistinct⟩ := List.nodup_cons.mp distinct
      rw [List.foldl_cons, inductionHypothesis restDistinct,
        Registry.get?_declare, TypeDecl.name]
      by_cases here : first.name = name
      · subst here
        rw [if_pos rfl]
        constructor
        · rintro (⟨declaration, member, named, rfl⟩ | ⟨_, found⟩)
          · exact Or.inl ⟨declaration, List.mem_cons_of_mem _ member, named, rfl⟩
          · cases found
            exact Or.inl ⟨first, List.mem_cons_self, rfl, rfl⟩
        · rintro (⟨declaration, member, named, rfl⟩ | ⟨absent, _⟩)
          · rcases List.mem_cons.mp member with rfl | later
            · exact Or.inr ⟨alone, rfl⟩
            · exact Or.inl ⟨declaration, later, named, rfl⟩
          · exact absurd List.mem_cons_self absent
      · rw [if_neg here]
        simp [here, Ne.symm here]

/-- A bundle whose names differ is as good as its representations. -/
private theorem parts_of_nodup {bundle : Bundle} (distinct : bundle.names.Nodup) :
    bundle.parts =
      (do
        let declarations ← bundle.enums.mapM EnumDef.declaration
        return (declarations.foldl
          (fun registry declaration => registry.declare (.enum declaration))
          .empty, bundle.records.map RecordDef.schema)) := by
  have unrepeated : repeated? [] bundle.names = none :=
    repeated?_eq_none_iff.mpr ⟨distinct, fun _ _ => List.not_mem_nil⟩
  rw [parts, unrepeated]
  show (bundle.enums.foldlM declareEnum .empty >>= _) = _
  rw [foldlM_declareEnum]
  cases bundle.enums.mapM EnumDef.declaration <;> rfl

section Parts

variable {bundle : Bundle}

theorem parts_eq_error_iff {cause : DefinitionError} :
    bundle.parts = .error cause ↔ bundle.Refused cause := by
  constructor
  · intro failed
    cases repeats : repeated? [] bundle.names with
    | some name =>
        rw [parts_of_repeated repeats] at failed
        cases failed
        obtain ⟨earlier, later, split, ⟨distinct, _⟩, again⟩ :=
          repeated?_eq_some_iff.mp repeats
        exact .repeated split distinct
          (again.resolve_left List.not_mem_nil)
    | none =>
        have distinct := (repeated?_eq_none_iff.mp repeats).1
        rw [parts_of_nodup distinct, bind_eq_error] at failed
        rcases failed with undeclared | ⟨_, _, absurdly⟩
        · obtain ⟨earlier, enum, later, split, declared, stops⟩ :=
            mapM_eq_error_iff.mp undeclared
          obtain ⟨unknown, rfl⟩ := EnumDef.declaration_eq_error_iff.mp stops
          exact .unstorable distinct split
            (fun other member =>
              EnumDef.exists_declaration_iff.mp (declared other member))
            unknown
        · cases absurdly
  · intro refused
    cases refused with
    | repeated split distinct again =>
        apply parts_of_repeated
        exact repeated?_eq_some_iff.mpr
          ⟨_, _, split, ⟨distinct, fun _ _ => List.not_mem_nil⟩,
            Or.inr again⟩
    | unstorable distinct split storable unknown =>
        rw [parts_of_nodup distinct, bind_eq_error]
        refine Or.inl (mapM_eq_error_iff.mpr ⟨_, _, _, split, ?_, ?_⟩)
        · intro other member
          exact EnumDef.exists_declaration_iff.mpr (storable other member)
        · exact EnumDef.declaration_eq_error_iff.mpr ⟨unknown, rfl⟩

private theorem nodup_of_parts
    {result : Registry × List Schema} (done : bundle.parts = .ok result) :
    bundle.names.Nodup := by
  cases repeats : repeated? [] bundle.names with
  | some name =>
      rw [parts_of_repeated repeats] at done
      cases done
  | none => exact (repeated?_eq_none_iff.mp repeats).1

theorem parts_eq_ok_iff
    (distinct : bundle.names.Nodup) {registry : Registry}
    {schemas : List Schema} :
    bundle.parts = .ok (registry, schemas) ↔
      ∃ declarations,
        List.Forall₂ EnumDef.DeclaredAs bundle.enums declarations ∧
          declarations.foldl
              (fun registry declaration => registry.declare (.enum declaration))
              .empty =
            registry ∧
          bundle.records.map RecordDef.schema = schemas := by
  simp only [parts_of_nodup distinct, bind_eq_ok, pure_eq_ok, mapM_eq_ok_iff,
    EnumDef.declaration_eq_ok_iff, Prod.mk.injEq]

theorem exists_parts_iff :
    (∃ registry schemas, bundle.parts = .ok (registry, schemas)) ↔
      bundle.names.Nodup ∧
        ∀ enum ∈ bundle.enums, ∃ scalar, enum.StoredAs scalar := by
  constructor
  · rintro ⟨registry, schemas, done⟩
    have distinct := nodup_of_parts done
    obtain ⟨declarations, declared, _⟩ := (parts_eq_ok_iff distinct).mp done
    refine ⟨distinct, ?_⟩
    intro enum listed
    obtain ⟨declaration, _, one⟩ :=
      exists_source_of_forall₂ declared.flip listed
    exact ⟨_, one.stored⟩
  · rintro ⟨distinct, storable⟩
    cases outcome : bundle.parts with
    | ok result => exact ⟨result.1, result.2, rfl⟩
    | error cause =>
        cases parts_eq_error_iff.mp outcome with
        | repeated split earlierDistinct again =>
            rw [split, List.nodup_append] at distinct
            exact absurd rfl (distinct.2.2 _ again _ List.mem_cons_self)
        | unstorable _ split _ unknown =>
            obtain ⟨scalar, stored⟩ :=
              storable _ (split ▸ List.mem_append_right _ List.mem_cons_self)
            exact absurd stored (unknown scalar)

end Parts

/-- The enums are declared, and are all that the registry answers for. -/
private theorem answersExactly_of_declared
    {enums : List EnumDef} {declarations : List EnumDecl}
    (distinct : (enums.map EnumDef.name).Nodup)
    (declared : List.Forall₂ EnumDef.DeclaredAs enums declarations) :
    (declarations.foldl
        (fun registry declaration => registry.declare (.enum declaration))
        Registry.empty).AnswersExactly enums := by
  have sameNames :
      declarations.map EnumDecl.name = enums.map EnumDef.name := by
    rw [← List.forall₂_eq_eq_eq, List.forall₂_map_left_iff,
      List.forall₂_map_right_iff]
    exact declared.flip.imp fun _ _ one => one.name
  rw [← sameNames] at distinct
  intro name answer
  rw [get?_foldl_declare distinct]
  constructor
  · rintro (⟨declaration, member, named, rfl⟩ | ⟨_, absurdly⟩)
    · obtain ⟨enum, listed, one⟩ := exists_source_of_forall₂ declared member
      exact ⟨enum, listed, one.name.symm.trans named, declaration, one, rfl⟩
    · cases absurdly
  · rintro ⟨enum, listed, named, declaration, one, rfl⟩
    obtain ⟨other, member, same⟩ :=
      exists_source_of_forall₂ declared.flip listed
    -- An enum is declared in one way only.
    have described := EnumDef.declaration_eq_ok_iff.mpr one
    rw [EnumDef.declaration_eq_ok_iff.mpr same, Except.ok.injEq] at described
    rw [← described]
    exact Or.inl ⟨other, member, same.name.trans named, rfl⟩

/-- A bundle is refused for its first repeated name, or else for its first enum that
cannot be stored, and otherwise taken apart: into a registry that answers for its enums
and for nothing else, and the schemas of its records in order. -/
theorem parts_tell_bundle (bundle : Bundle) :
    (∀ cause, bundle.parts = .error cause ↔ bundle.Refused cause) ∧
      ((∃ registry schemas, bundle.parts = .ok (registry, schemas)) ↔
          bundle.names.Nodup ∧
            ∀ enum ∈ bundle.enums, ∃ scalar, enum.StoredAs scalar) ∧
        ∀ registry schemas,
          bundle.parts = .ok (registry, schemas) →
            registry.AnswersExactly bundle.enums ∧
              List.Forall₂ RecordDef.DescribedBy bundle.records schemas := by
  refine ⟨fun _ => parts_eq_error_iff, exists_parts_iff, ?_⟩
  intro registry schemas done
  have distinct := nodup_of_parts done
  obtain ⟨declarations, declared, rfl, rfl⟩ :=
    (parts_eq_ok_iff distinct).mp done
  refine
    ⟨answersExactly_of_declared (List.nodup_append.mp distinct).1 declared, ?_⟩
  rw [List.forall₂_map_right_iff, List.forall₂_same]
  exact fun record _ => record.describedBy_schema

end Bundle

namespace Drawing

/-- A bundle whose enum is stored as a scalar between blanks. -/
def palette : Bundle where
  enums :=
    [{ name := "Tint"
       representation := "\ti8 "
       variants := [⟨"red", -1⟩, ⟨"green", 4⟩, ⟨"crimson", -1⟩] }]
  records :=
    [{ name := "Patch"
       bigEndian := true
       fields := [⟨"tint", "Tint"⟩, ⟨"corners", "[Point; 4]"⟩] }]

/-- A bundle with a representation that is no scalar, and a name that is both that of an
enum and that of a record. -/
def spoiltPalette : Bundle where
  enums :=
    [{ name := "Tint", representation := "i 8", variants := [] },
      { name := "Shade", representation := "u8", variants := [] }]
  records := [{ name := "Patch", fields := [] }, { name := "Shade", fields := [] }]

end Drawing

/-- The first palette is taken apart, and the second is refused for the name. -/
theorem Bundle.parts_tell_bundle_of_palettes :
    (∃ registry schemas,
        Drawing.palette.parts = .ok (registry, schemas) ∧
          registry.AnswersExactly Drawing.palette.enums ∧
            List.Forall₂ RecordDef.DescribedBy Drawing.palette.records
                schemas ∧
              (schemas.map fun schema => schema.fields.map Field.ordinal) =
                [[0, 1]]) ∧
      Drawing.spoiltPalette.Refused (.duplicateType "Shade") := by
  obtain ⟨_, _, tells⟩ := parts_tell_bundle Drawing.palette
  obtain ⟨refuses, _, _⟩ := parts_tell_bundle Drawing.spoiltPalette
  obtain ⟨registry, schemas, done, numbers⟩ :
      ∃ registry schemas,
        Drawing.palette.parts = .ok (registry, schemas) ∧
          (schemas.map fun schema => schema.fields.map Field.ordinal) =
            [[0, 1]] :=
    ⟨_, _, rfl, rfl⟩
  have spoilt : Drawing.spoiltPalette.parts = .error (.duplicateType "Shade") :=
    rfl
  obtain ⟨answers, described⟩ := tells registry schemas done
  exact ⟨⟨registry, schemas, done, answers, described, numbers⟩,
    (refuses _).mp spoilt⟩

end PackedRecord
