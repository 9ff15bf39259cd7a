import PackedRecord.Proofs.CatalogHistory

/-!
# Independent declarations

Compiling a record looks up the types that its own fields name, and nothing else.  So
two registries that agree on these names are the same to it, and what is declared
under other names neither helps nor harms.

Two records that do not name each other can therefore be added to a catalog in either
order.  The states reached are alike and not equal: codecs, errors and declarations
stand in the order of the additions.
-/

namespace PackedRecord

def Schema.Refers (schema : Schema) (typeName : String) : Prop :=
  ∃ field ∈ schema.fields, field.type = .named typeName

instance (schema : Schema) (typeName : String) :
    Decidable (schema.Refers typeName) :=
  inferInstanceAs
    (Decidable (∃ field ∈ schema.fields, field.type = .named typeName))

namespace Registry

/-- The registries answer alike for every type that the record refers to. -/
def AlikeFor (schema : Schema) (first second : Registry) : Prop :=
  ∀ typeName,
    schema.Refers typeName → first.get? typeName = second.get? typeName

end Registry

/-! ## What compiling looks up -/

section Lookups

variable {cause source target state : Type}

private theorem mapM_congr_of_mem
    {step other : source → Except cause target} {items : List source}
    (same : ∀ item ∈ items, step item = other item) :
    items.mapM step = items.mapM other := by
  induction items with
  | nil => rfl
  | cons item rest inductionHypothesis =>
      have sameRest :=
        inductionHypothesis fun later member =>
          same later (List.mem_cons_of_mem _ member)
      rw [List.mapM_cons, List.mapM_cons, same item List.mem_cons_self, sameRest]

private theorem foldlM_congr_of_mem
    {step other : state → source → Except cause state} {items : List source}
    (same : ∀ item ∈ items, ∀ current, step current item = other current item)
    (start : state) :
    items.foldlM step start = items.foldlM other start := by
  induction items generalizing start with
  | nil => rfl
  | cons item rest inductionHypothesis =>
      have sameRest :=
        inductionHypothesis fun later member =>
          same later (List.mem_cons_of_mem _ member)
      rw [List.foldlM_cons, List.foldlM_cons, same item List.mem_cons_self]
      exact congrArg _ (funext sameRest)

end Lookups

section Alike

variable {schema : Schema} {first second : Registry}
  (alike : Registry.AlikeFor schema first second)
include alike

private theorem Field.classify_of_alike
    {field : Field} (member : field ∈ schema.fields) (record : String)
    (variants : List Variant) :
    field.classify record first variants =
      field.classify record second variants := by
  unfold classify
  cases type : field.type with
  | named typeName =>
      have same := alike typeName ⟨field, member, type⟩
      simp only [same]
  | primitive scalar => rfl
  | array element length => rfl

private theorem Schema.classify_of_alike (variants : List Variant) :
    schema.classify first variants = schema.classify second variants := by
  apply mapM_congr_of_mem
  intro field member
  rw [Field.classify_of_alike alike member]

theorem Schema.generate_of_alike (options : GenerateOptions) :
    schema.generate first options = schema.generate second options := by
  simp only [generate, classify_of_alike alike]

private theorem RecordCodec.bindField_of_alike
    {field : Field} (member : field ∈ schema.fields) (record : String)
    (types : Registry) :
    bindField record first types field =
      bindField record second types field := by
  unfold bindField
  cases type : field.type with
  | named typeName =>
      have same := alike typeName ⟨field, member, type⟩
      simp only [same]
  | primitive scalar => rfl
  | array element length => rfl

/-- Whether a record compiles, and what it compiles to, depends on the types that its
fields name. -/
private theorem RecordCodec.compile_of_alike (options : GenerateOptions) :
    compile schema first options = compile schema second options := by
  have binds :
      schema.fields.foldlM (bindField schema.name first) .empty =
        schema.fields.foldlM (bindField schema.name second) .empty := by
    apply foldlM_congr_of_mem
    intro field member types
    exact bindField_of_alike alike member schema.name types
  rw [compile, compile, Schema.generate_of_alike alike, binds]

end Alike

/-! ## Records that do not name each other -/

/-- The records have different names, and neither has a field of the other's type. -/
structure Schema.Apart (first second : Schema) : Prop where
  named : first.name ≠ second.name
  before : ¬ first.Refers second.name
  behind : ¬ second.Refers first.name

theorem Schema.Apart.symm
    {first second : Schema} (apart : first.Apart second) :
    second.Apart first where
  named := apart.named.symm
  before := apart.behind
  behind := apart.before

namespace Catalog

variable {catalog : Catalog} {first second : Addition}

/-- An addition contributes nothing under other names than its own. -/
private theorem gained?_of_other_name
    {name : String} (other : first.schema.name ≠ name) :
    catalog.gained? first name = none := by
  cases tried : catalog.outcome first with
  | ok codec =>
      have named : codec.name = first.schema.name :=
        RecordCodec.name_of_compile tried
      rw [gained?_of_ok tried, named, if_neg other]
  | error cause => exact gained?_of_error tried name

private theorem alike_adding
    (unnamed : ¬ second.schema.Refers first.schema.name) :
    Registry.AlikeFor second.schema (catalog.adding first).registry
      catalog.registry := by
  intro typeName refers
  have other : first.schema.name ≠ typeName := by
    intro same
    apply unnamed
    rw [same]
    exact refers
  rw [get?_adding, gained?_of_other_name other]
  rfl

section Apart

variable (apart : first.schema.Apart second.schema)
include apart

/-- What an addition comes to is the same before and behind an independent one. -/
private theorem outcome_adding_of_apart :
    (catalog.adding first).outcome second = catalog.outcome second :=
  RecordCodec.compile_of_alike (alike_adding apart.behind) second.options

private theorem gained?_adding_of_apart (name : String) :
    (catalog.adding first).gained? second name =
      catalog.gained? second name := by
  rw [gained?, outcome_adding_of_apart apart, ← gained?]

theorem gained?_or_comm_of_apart (name : String) :
    (catalog.gained? first name).or (catalog.gained? second name) =
      (catalog.gained? second name).or (catalog.gained? first name) := by
  by_cases own : first.schema.name = name
  · have other : second.schema.name ≠ name := by
      rw [← own]
      exact apart.named.symm
    rw [gained?_of_other_name other, Option.or_none, Option.none_or]
  · rw [gained?_of_other_name own, Option.or_none, Option.none_or]

theorem codec?_comm_of_apart (name : String) :
    ((catalog.adding first).adding second).codec? name =
      ((catalog.adding second).adding first).codec? name := by
  rw [codec?_adding, codec?_adding, codec?_adding, codec?_adding,
    gained?_adding_of_apart apart, gained?_adding_of_apart apart.symm,
    Option.or_assoc, Option.or_assoc, gained?_or_comm_of_apart apart]

theorem get?_comm_of_apart (name : String) :
    ((catalog.adding first).adding second).registry.get? name =
      ((catalog.adding second).adding first).registry.get? name := by
  rw [get?_adding, get?_adding, get?_adding, get?_adding,
    gained?_adding_of_apart apart, gained?_adding_of_apart apart.symm,
    ← Option.or_assoc, ← Option.or_assoc, ← Option.map_or, ← Option.map_or,
    gained?_or_comm_of_apart apart.symm]

theorem errors_perm_of_apart :
    ((catalog.adding first).adding second).errors.Perm
      ((catalog.adding second).adding first).errors := by
  rw [errors_adding, errors_adding, errors_adding, errors_adding,
    outcome_adding_of_apart apart, outcome_adding_of_apart apart.symm,
    List.append_assoc, List.append_assoc]
  exact List.perm_append_comm.append_left _

end Apart

/-- Compiling depends on the answers for the types that a record's fields name.  So two
records that do not name each other are accepted or refused alike in either order, and
leave catalogs that answer alike and hold the same errors. -/
theorem apart_additions_commute :
    (∀ (schema : Schema) (options : GenerateOptions) (first second : Registry),
      Registry.AlikeFor schema first second →
        RecordCodec.compile schema first options =
          RecordCodec.compile schema second options) ∧
      ∀ (catalog : Catalog) (first second : Schema)
        (firstOptions secondOptions : GenerateOptions),
        first.Apart second →
          (catalog.add second secondOptions).accepts first firstOptions =
              catalog.accepts first firstOptions ∧
            (catalog.add first firstOptions).accepts second secondOptions =
                catalog.accepts second secondOptions ∧
              (∀ name,
                ((catalog.add first firstOptions).add second
                    secondOptions).registry.get? name =
                  ((catalog.add second secondOptions).add first
                    firstOptions).registry.get? name) ∧
                (∀ name,
                  ((catalog.add first firstOptions).add second
                      secondOptions).codec? name =
                    ((catalog.add second secondOptions).add first
                      firstOptions).codec? name) ∧
                  ((catalog.add first firstOptions).add second
                      secondOptions).errors.Perm
                    ((catalog.add second secondOptions).add first
                      firstOptions).errors := by
  constructor
  · intro schema options first second alike
    exact RecordCodec.compile_of_alike alike options
  · intro catalog first second firstOptions secondOptions apart
    let here : Addition := { schema := first, options := firstOptions }
    let there : Addition := { schema := second, options := secondOptions }
    have forth : here.schema.Apart there.schema := apart
    have back : there.schema.Apart here.schema := apart.symm
    refine ⟨?_, ?_, ?_, ?_, ?_⟩
    · exact congrArg Except.isOk (outcome_adding_of_apart back)
    · exact congrArg Except.isOk (outcome_adding_of_apart forth)
    · exact get?_comm_of_apart forth
    · exact codec?_comm_of_apart forth
    · exact errors_perm_of_apart forth

end Catalog

namespace Drawing

/-- A record beside the point: it names the colour, and no other record. -/
def stroke : Schema :=
  (Schema.builder "Stroke").withFields
    [("colour", .named "Colour"), ("width", .primitive .u8)]

def blank : Catalog :=
  { registry := colours }

private theorem apart_point_stroke : point.Apart stroke where
  named := by decide
  before := by decide
  behind := by decide

theorem apart_additions_commute_point_stroke :
    (∃ codec,
      RecordCodec.compile stroke colours {} = .ok codec ∧
        RecordCodec.compile stroke points.registry {} = .ok codec) ∧
      (blank.add point {}).accepts stroke {} = true ∧
        (blank.add stroke {}).accepts point {} = true ∧
          ((blank.add point {}).add stroke {}).records = ["Point", "Stroke"] ∧
            ((blank.add stroke {}).add point {}).records =
                ["Stroke", "Point"] ∧
              ∀ name,
                ((blank.add point {}).add stroke {}).codec? name =
                  ((blank.add stroke {}).add point {}).codec? name := by
  obtain ⟨lookups, commute⟩ := Catalog.apart_additions_commute
  have alike : Registry.AlikeFor stroke points.registry colours := by
    let added : Addition := { schema := point }
    let other : Addition := { schema := stroke }
    have unnamed : ¬ other.schema.Refers added.schema.name := by decide
    have grown : points = blank.adding added := rfl
    rw [grown]
    exact Catalog.alike_adding unnamed
  have same := lookups stroke {} points.registry colours alike
  obtain ⟨pointAccepted, strokeAccepted, _, fetched, _⟩ :=
    commute blank point stroke {} {} apart_point_stroke
  obtain ⟨codec, compiled⟩ :
      ∃ codec, RecordCodec.compile stroke colours {} = .ok codec :=
    ⟨_, rfl⟩
  exact ⟨⟨codec, compiled, same.trans compiled⟩, strokeAccepted, pointAccepted,
    rfl, rfl, fetched⟩

end Drawing

end PackedRecord
