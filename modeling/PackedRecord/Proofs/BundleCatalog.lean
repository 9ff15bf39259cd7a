import Mathlib.Data.List.Nodup
import PackedRecord.Bundle.Basic
import PackedRecord.Proofs.ComponentLaw

/-!
# Where a bundle's types come from

The names of a bundle differ, so a name stands for one enum or for one record.  A
registry that a record is compiled against answers for the enums and for the records
compiled before, and this module shows that these answers survive in the finished
catalog: whatever a name stood for, the catalog still holds.
-/

namespace PackedRecord

namespace Bundle

theorem repeated?_eq_none_iff {seen names : List String} :
    repeated? seen names = none ↔
      names.Nodup ∧ ∀ name ∈ names, name ∉ seen := by
  induction names generalizing seen with
  | nil => simp [repeated?]
  | cons name rest inductionHypothesis =>
      rw [repeated?, List.nodup_cons, List.forall_mem_cons]
      by_cases repeats : name ∈ seen
      · simp [repeats]
      · rw [if_neg repeats, inductionHypothesis]
        simp only [List.mem_cons, not_or]
        constructor
        · rintro ⟨distinct, apart⟩
          exact ⟨⟨fun later => (apart name later).1 rfl, distinct⟩, repeats,
            fun other member => (apart other member).2⟩
        · rintro ⟨⟨alone, distinct⟩, _, unseen⟩
          refine ⟨distinct, fun other member => ⟨?_, unseen other member⟩⟩
          rintro rfl
          exact alone member

end Bundle

/-- A registry answers with enums for some names, and otherwise with compiled
records under their own names. -/
def Registry.AnswersFrom (registry : Registry) (enums : List String)
    (codecs : List RecordCodec) : Prop :=
  ∀ name answer,
    registry.get? name = some answer →
      (name ∈ enums ∧ ∃ declaration, answer = .enum declaration) ∨
        ∃ codec ∈ codecs,
          codec.name = name ∧ answer = .bound name codec.toComposite

namespace Registry.AnswersFrom

variable {registry : Registry} {enums : List String}
  {codecs more : List RecordCodec}

private theorem grow
    (answers : registry.AnswersFrom enums codecs) (included : codecs ⊆ more) :
    registry.AnswersFrom enums more := by
  intro name answer found
  rcases answers name answer found with enum | ⟨codec, member, named⟩
  · exact Or.inl enum
  · exact Or.inr ⟨codec, included member, named⟩

private theorem declare_record
    (answers : registry.AnswersFrom enums codecs) {codec : RecordCodec}
    (member : codec ∈ codecs) :
    (registry.declare (.bound codec.name codec.toComposite)).AnswersFrom enums
      codecs := by
  intro name answer found
  rw [get?_declare] at found
  by_cases same : codec.name = name
  · rw [TypeDecl.name, if_pos same] at found
    cases found
    cases same
    exact Or.inr ⟨codec, member, rfl, rfl⟩
  · rw [TypeDecl.name, if_neg same] at found
    exact answers name answer found

theorem onlyEnums (answers : registry.AnswersFrom enums []) :
    registry.OnlyEnums := by
  intro name answer found
  rcases answers name answer found with ⟨_, isEnum⟩ | ⟨_, absent, _⟩
  · exact isEnum
  · cases absent

end Registry.AnswersFrom

private theorem Bundle.answersFrom_of_declareEnum
    {names : List String} {enums : List EnumDef} {registry later : Registry}
    (answers : registry.AnswersFrom names [])
    (listed : ∀ enum ∈ enums, enum.name ∈ names)
    (declared : enums.foldlM declareEnum registry = .ok later) :
    later.AnswersFrom names [] := by
  induction enums generalizing registry with
  | nil =>
      rw [List.foldlM_nil, pure_eq_ok] at declared
      rw [← declared]
      exact answers
  | cons enum rest inductionHypothesis =>
      rw [List.foldlM_cons, bind_eq_ok] at declared
      obtain ⟨between, first, others⟩ := declared
      apply inductionHypothesis _ _ others
      · simp only [declareEnum, bind_eq_ok, pure_eq_ok] at first
        obtain ⟨declaration, described, same⟩ := first
        have named : declaration.name = enum.name := by
          simp only [EnumDef.declaration] at described
          split at described
          · cases described
            rfl
          · cases described
        intro name answer found
        rw [← same, Registry.get?_declare, TypeDecl.name, named] at found
        by_cases here : enum.name = name
        · rw [if_pos here] at found
          cases found
          rw [← here]
          exact Or.inl ⟨listed enum List.mem_cons_self, declaration, rfl⟩
        · rw [if_neg here] at found
          exact answers name answer found
      · intro later member
        exact listed later (List.mem_cons_of_mem _ member)

/-! ## Catalogs that were built from schemas -/

/-- A catalog that was built from schemas, one record at a time, over some enums:
every record comes from one of the schemas, in order, and the registry it was
compiled against answers with what the catalog holds. -/
structure Catalog.BuiltFrom (catalog : Catalog) (enums : List String)
    (options : GenerateOptions) (schemas : List Schema) : Prop where
  answers : catalog.registry.AnswersFrom enums catalog.codecs
  compiled :
    ∀ codec ∈ catalog.codecs,
      ∃ schema ∈ schemas,
        ∃ registry : Registry,
          registry.AnswersFrom enums catalog.codecs ∧
            RecordCodec.compile schema registry options = .ok codec
  ordered :
    List.Sublist (catalog.codecs.map RecordCodec.name)
      (schemas.map Schema.name)

namespace Catalog.BuiltFrom

variable {catalog : Catalog} {enums : List String} {options : GenerateOptions}
  {schemas : List Schema}

theorem add
    (built : catalog.BuiltFrom enums options schemas) (schema : Schema) :
    (catalog.add schema options).BuiltFrom enums options
      (schemas ++ [schema]) := by
  unfold Catalog.add
  split
  · next made compiles =>
      have named := RecordCodec.name_of_compile compiles
      have grown : catalog.codecs ⊆ catalog.codecs ++ [made] :=
        List.subset_append_left _ _
      constructor
      · rw [← named]
        exact (built.answers.grow grown).declare_record
          (List.mem_append_right _ List.mem_cons_self)
      · intro codec member
        rcases List.mem_append.mp member with earlier | last
        · obtain ⟨source, listed, registry, answers, compiled⟩ :=
            built.compiled codec earlier
          exact ⟨source, List.mem_append_left _ listed, registry,
            answers.grow grown, compiled⟩
        · rw [List.mem_singleton.mp last]
          exact ⟨schema, List.mem_append_right _ List.mem_cons_self,
            catalog.registry, built.answers.grow grown, compiles⟩
      · rw [List.map_append, List.map_append, List.map_singleton,
          List.map_singleton, named]
        exact built.ordered.append (List.Sublist.refl _)
  · constructor
    · exact built.answers
    · intro codec member
      obtain ⟨source, listed, rest⟩ := built.compiled codec member
      exact ⟨source, List.mem_append_left _ listed, rest⟩
    · rw [List.map_append]
      exact built.ordered.trans (List.sublist_append_left _ _)

theorem compile
    {start : Registry} (answers : start.AnswersFrom enums [])
    (options : GenerateOptions) (schemas : List Schema) :
    (Catalog.compile start schemas options).BuiltFrom enums options
      schemas := by
  have grows :
      ∀ (done rest : List Schema) (catalog : Catalog),
        catalog.BuiltFrom enums options done →
          (rest.foldl (fun catalog schema => catalog.add schema options)
              catalog).BuiltFrom enums options (done ++ rest) := by
    intro done rest
    induction rest generalizing done with
    | nil =>
        intro catalog built
        rw [List.append_nil]
        exact built
    | cons schema rest inductionHypothesis =>
        intro catalog built
        have next := inductionHypothesis (done ++ [schema]) _ (built.add schema)
        rw [List.append_assoc] at next
        exact next
  have empty :
      ({ registry := start } : Catalog).BuiltFrom enums options [] :=
    { answers
      compiled := fun _ absent => absurd absent List.not_mem_nil
      ordered := List.Sublist.refl _ }
  exact grows [] schemas _ empty

section Distinct

variable (built : catalog.BuiltFrom enums options schemas)
  (distinct : (enums ++ schemas.map Schema.name).Nodup)
include built distinct

theorem eq_of_name
    {first second : RecordCodec} (firstMember : first ∈ catalog.codecs)
    (secondMember : second ∈ catalog.codecs) (same : first.name = second.name) :
    first = second := by
  have names := built.ordered.nodup (List.nodup_append.mp distinct).2.1
  exact List.inj_on_of_nodup_map names firstMember secondMember same

theorem compile_of_name
    {codec : RecordCodec} (member : codec ∈ catalog.codecs) {schema : Schema}
    (listed : schema ∈ schemas) (named : schema.name = codec.name) :
    ∃ registry : Registry,
      registry.AnswersFrom enums catalog.codecs ∧
        RecordCodec.compile schema registry options = .ok codec := by
  obtain ⟨source, sourceListed, registry, answers, compiled⟩ :=
    built.compiled codec member
  have sourceNamed := RecordCodec.name_of_compile compiled
  have names := (List.nodup_append.mp distinct).2.1
  have same : schema = source :=
    List.inj_on_of_nodup_map names listed sourceListed
      (named.trans sourceNamed)
  rw [same]
  exact ⟨registry, answers, compiled⟩

/-- If all names differ, the name of a compiled record stands for this record. -/
theorem answer_eq_bound
    {registry : Registry} (answers : registry.AnswersFrom enums catalog.codecs)
    {codec : RecordCodec} (member : codec ∈ catalog.codecs) {answer : TypeDecl}
    (found : registry.get? codec.name = some answer) :
    answer = .bound codec.name codec.toComposite := by
  rcases answers codec.name answer found with
    ⟨isEnum, _⟩ | ⟨other, otherMember, named, bound⟩
  · have isRecord : codec.name ∈ schemas.map Schema.name :=
      built.ordered.subset (List.mem_map_of_mem member)
    exact absurd rfl
      ((List.nodup_append.mp distinct).2.2 codec.name isEnum codec.name isRecord)
  · rw [built.eq_of_name distinct otherMember member named] at bound
    exact bound

end Distinct

end Catalog.BuiltFrom

namespace Bundle

variable {bundle : Bundle} {catalog : Catalog}

/-- The catalog of a bundle is compiled from its records over its enums, whose names
all differ. -/
theorem start_of_catalog (compiles : bundle.catalog = .ok catalog) :
    bundle.names.Nodup ∧
      ∃ start : Registry,
        start.AnswersFrom (bundle.enums.map EnumDef.name) [] ∧
          Catalog.compile start (bundle.records.map RecordDef.schema)
              bundle.options =
            catalog := by
  simp only [Bundle.catalog, bind_eq_ok, pure_eq_ok, Prod.exists] at compiles
  obtain ⟨registry, schemas, parts, same⟩ := compiles
  unfold Bundle.parts at parts
  split at parts
  · cases parts
  · next distinct =>
      simp only [bind_eq_ok, pure_eq_ok, Prod.mk.injEq] at parts
      obtain ⟨start, declared, sameRegistry, sameSchemas⟩ := parts
      have empty :
          Registry.empty.AnswersFrom (bundle.enums.map EnumDef.name) [] :=
        fun _ _ found => by cases found
      have answers :=
        answersFrom_of_declareEnum empty
          (fun _ member => List.mem_map_of_mem member) declared
      rw [sameRegistry] at answers
      rw [← sameSchemas] at same
      exact ⟨(repeated?_eq_none_iff.mp distinct).1, registry, answers, same⟩

theorem builtFrom_of_catalog (compiles : bundle.catalog = .ok catalog) :
    (bundle.enums.map EnumDef.name ++
          (bundle.records.map RecordDef.schema).map Schema.name).Nodup ∧
      catalog.BuiltFrom (bundle.enums.map EnumDef.name) bundle.options
        (bundle.records.map RecordDef.schema) := by
  obtain ⟨distinct, start, answers, same⟩ := start_of_catalog compiles
  have named :
      (bundle.records.map RecordDef.schema).map Schema.name =
        bundle.records.map RecordDef.name := by
    rw [List.map_map]
    exact List.map_congr_left fun record _ => record.name_schema
  rw [named, ← same]
  exact ⟨distinct, .compile answers _ _⟩

/-- The catalog of a bundle grows from a registry of enums. -/
theorem exists_start_of_catalog (compiles : bundle.catalog = .ok catalog) :
    ∃ start : Registry, start.OnlyEnums ∧ Catalog.Reached start catalog := by
  obtain ⟨_, start, answers, same⟩ := start_of_catalog compiles
  rw [← same]
  exact ⟨start, answers.onlyEnums, Catalog.reached_compile _ _ _⟩

end Bundle

end PackedRecord
