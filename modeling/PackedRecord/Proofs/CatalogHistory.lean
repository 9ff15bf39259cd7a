import PackedRecord.Proofs.BundleCatalog
import PackedRecord.Proofs.ExchangeRoundTrip
import PackedRecord.Proofs.Refusals

/-!
# The history of a catalog

A catalog is made by one addition after another, and each addition is judged by the
types that the earlier ones left behind.  This module recovers the history from the
state: what became of every addition, which record a name stands for, and what a
refused addition leaves.

Two lookups have to be told apart.  The registry answers with the latest declaration
of a name, while a record is fetched from the catalog by its first.  They agree
where no name is used twice, and a bundle is refused otherwise.
-/

namespace PackedRecord

/-! ## Refusals name their record -/

/-- Whatever stops a record from compiling, the error is about that record. -/
theorem RecordCodec.record_of_compile
    {schema : Schema} {registry : Registry} {options : GenerateOptions}
    {cause : GenerateError}
    (refused : compile schema registry options = .error cause) :
    cause.record = schema.name := by
  simp only [compile, bind_eq_error] at refused
  rcases refused with ungenerated | ⟨_, _, unbound | ⟨_, _, absurdly⟩⟩
  · exact (Schema.generate_eq_error_iff.mp ungenerated).record_eq
  · obtain ⟨_, field, _, _, _, _, failed⟩ :=
      exists_step_of_foldlM_eq_error unbound
    simp only [bindField] at failed
    grind [GenerateError.record]
  · cases absurdly

/-! ## One addition -/

def failure? {cause result : Type} : Except cause result → Option cause
  | .ok _ => none
  | .error cause => some cause

/-- A record to be added to a catalog, with the options for it. -/
structure Addition where
  schema : Schema
  options : GenerateOptions := {}
  deriving DecidableEq, Repr

/-- Records to be added one after another under the same options. -/
def Addition.all (schemas : List Schema) (options : GenerateOptions) :
    List Addition :=
  schemas.map fun schema => { schema, options }

namespace Catalog

/-- What compiling an added record comes to. -/
def outcome (catalog : Catalog) (addition : Addition) :
    Except GenerateError RecordCodec :=
  RecordCodec.compile addition.schema catalog.registry addition.options

def adding (catalog : Catalog) (addition : Addition) : Catalog :=
  catalog.add addition.schema addition.options

def extend (catalog : Catalog) (additions : List Addition) : Catalog :=
  additions.foldl adding catalog

private theorem extend_append (catalog : Catalog) (first second : List Addition) :
    catalog.extend (first ++ second) = (catalog.extend first).extend second :=
  List.foldl_append

def latest? (catalog : Catalog) (name : String) : Option RecordCodec :=
  catalog.codecs.reverse.find? fun codec => codec.name == name

/-- The record that an addition contributes under a name. -/
def gained? (catalog : Catalog) (addition : Addition) (name : String) :
    Option RecordCodec :=
  (catalog.outcome addition).toOption.filter fun codec => codec.name == name

section Adding

variable {catalog : Catalog} {addition : Addition} {codec : RecordCodec}
  {cause : GenerateError}

theorem adding_of_ok (compiled : catalog.outcome addition = .ok codec) :
    catalog.adding addition =
      { catalog with
        registry :=
          catalog.registry.declare (.bound codec.name codec.toComposite)
        codecs := catalog.codecs ++ [codec] } := by
  rw [outcome] at compiled
  rw [adding, add, compiled, RecordCodec.name_of_compile compiled]

theorem adding_of_error (refused : catalog.outcome addition = .error cause) :
    catalog.adding addition =
      { catalog with errors := catalog.errors ++ [cause] } := by
  rw [outcome] at refused
  rw [adding, add, refused]

theorem gained?_of_ok
    (compiled : catalog.outcome addition = .ok codec) (name : String) :
    catalog.gained? addition name =
      if codec.name = name then some codec else none := by
  simp [gained?, compiled, Except.toOption, Option.filter]

theorem gained?_of_error
    (refused : catalog.outcome addition = .error cause) (name : String) :
    catalog.gained? addition name = none := by
  simp [gained?, refused, Except.toOption]

variable (catalog addition)

theorem errors_adding :
    (catalog.adding addition).errors =
      catalog.errors ++ (failure? (catalog.outcome addition)).toList := by
  cases tried : catalog.outcome addition with
  | ok codec =>
      rw [adding_of_ok tried]
      exact (List.append_nil _).symm
  | error cause =>
      rw [adding_of_error tried]
      rfl

/-- Fetching a record prefers what the catalog held before an addition. -/
theorem codec?_adding (name : String) :
    (catalog.adding addition).codec? name =
      (catalog.codec? name).or (catalog.gained? addition name) := by
  cases tried : catalog.outcome addition with
  | ok codec =>
      rw [adding_of_ok tried, gained?_of_ok tried, codec?, List.find?_append,
        List.find?_singleton]
      simp [codec?]
  | error cause =>
      rw [adding_of_error tried, gained?_of_error tried, Option.or_none]
      rfl

private theorem latest?_adding (name : String) :
    (catalog.adding addition).latest? name =
      (catalog.gained? addition name).or (catalog.latest? name) := by
  cases tried : catalog.outcome addition with
  | ok codec =>
      rw [adding_of_ok tried, gained?_of_ok tried, latest?, List.reverse_append,
        List.find?_append, List.reverse_singleton, List.find?_singleton]
      simp [latest?]
  | error cause =>
      rw [adding_of_error tried, gained?_of_error tried, Option.none_or]
      rfl

/-- The registry prefers what an addition contributes. -/
theorem get?_adding (name : String) :
    (catalog.adding addition).registry.get? name =
      ((catalog.gained? addition name).map fun codec =>
          TypeDecl.bound name codec.toComposite).or
        (catalog.registry.get? name) := by
  cases tried : catalog.outcome addition with
  | ok codec =>
      rw [adding_of_ok tried, gained?_of_ok tried, Registry.get?_declare,
        TypeDecl.name]
      by_cases same : codec.name = name
      · rw [if_pos same, if_pos same, same]
        rfl
      · rw [if_neg same, if_neg same]
        rfl
  | error cause =>
      rw [adding_of_error tried, gained?_of_error tried]
      rfl

end Adding

end Catalog

/-! ## The history -/

/-- An addition and what it came to. -/
structure Entry extends Addition where
  outcome : Except GenerateError RecordCodec

namespace Entry

def codec? (entry : Entry) : Option RecordCodec :=
  entry.outcome.toOption

def cause? (entry : Entry) : Option GenerateError :=
  failure? entry.outcome

def compiledName? (entry : Entry) : Option String :=
  if entry.outcome.isOk then some entry.schema.name else none

end Entry

namespace Catalog

/-- Some history has made the catalog of a registry.  Every entry was compiled against
the types that stood before it, and is kept as a record or as an error, in order. -/
structure MadeBy (start : Registry) (history : List Entry) (catalog : Catalog) :
    Prop where
  reached :
    catalog = extend { registry := start } (history.map Entry.toAddition)
  compiled : ∀ before entry behind,
    history = before ++ entry :: behind →
      entry.outcome =
        RecordCodec.compile entry.schema
          (extend { registry := start }
            (before.map Entry.toAddition)).registry
          entry.options
  codecs : catalog.codecs = history.filterMap Entry.codec?
  records : catalog.records = history.filterMap Entry.compiledName?
  errors : catalog.errors = history.filterMap Entry.cause?
  blamed : ∀ entry ∈ history, ∀ cause,
    entry.outcome = .error cause → cause.record = entry.schema.name
  latest : ∀ name,
    catalog.registry.get? name =
      ((catalog.latest? name).map fun codec =>
          TypeDecl.bound name codec.toComposite).or
        (start.get? name)

namespace MadeBy

variable {start : Registry} {history : List Entry} {catalog : Catalog}

private theorem nothing : MadeBy start [] { registry := start } where
  reached := rfl
  compiled before entry behind same := by simp at same
  codecs := rfl
  records := rfl
  errors := rfl
  blamed entry absent := absurd absent List.not_mem_nil
  latest name := rfl

theorem adding (made : MadeBy start history catalog) (addition : Addition) :
    MadeBy start
      (history ++ [{ addition with outcome := catalog.outcome addition }])
      (catalog.adding addition) where
  reached := by
    rw [List.map_append, extend_append, ← made.reached]
    rfl
  compiled before entry behind same := by
    rcases List.eq_nil_or_concat behind with last | ⟨between, final, more⟩
    · rw [last] at same
      obtain ⟨sameBefore, sameEntry⟩ := List.append_inj' same rfl
      cases sameEntry
      rw [← sameBefore, ← made.reached]
      rfl
    · rw [more, List.concat_eq_append, ← List.cons_append,
        ← List.append_assoc] at same
      exact made.compiled before entry between (List.append_inj' same rfl).1
  codecs := by
    rw [List.filterMap_append, ← made.codecs]
    cases tried : catalog.outcome addition with
    | ok codec =>
        rw [adding_of_ok tried]
        rfl
    | error cause =>
        rw [adding_of_error tried]
        exact (List.append_nil _).symm
  records := by
    rw [List.filterMap_append, ← made.records]
    cases tried : catalog.outcome addition with
    | ok codec =>
        rw [adding_of_ok tried, Catalog.records, List.map_append,
          List.map_singleton, RecordCodec.name_of_compile tried]
        rfl
    | error cause =>
        rw [adding_of_error tried]
        exact (List.append_nil _).symm
  errors := by
    rw [List.filterMap_append, ← made.errors, errors_adding]
    cases catalog.outcome addition <;> rfl
  blamed entry member cause refused := by
    rcases List.mem_append.mp member with earlier | last
    · exact made.blamed entry earlier cause refused
    · cases List.mem_singleton.mp last
      exact RecordCodec.record_of_compile refused
  latest name := by
    rw [get?_adding, latest?_adding, made.latest, Option.map_or, Option.or_assoc]

theorem extend (made : MadeBy start history catalog) (additions : List Addition) :
    ∃ whole : List Entry,
      whole.map Entry.toAddition =
          history.map Entry.toAddition ++ additions ∧
        MadeBy start whole (catalog.extend additions) := by
  induction additions generalizing history catalog with
  | nil => exact ⟨history, (List.append_nil _).symm, made⟩
  | cons addition rest inductionHypothesis =>
      obtain ⟨whole, same, madeWhole⟩ :=
        inductionHypothesis (made.adding addition)
      rw [List.map_append, List.append_assoc] at same
      exact ⟨whole, same, madeWhole⟩

end MadeBy

theorem compile_eq_extend
    (start : Registry) (schemas : List Schema) (options : GenerateOptions) :
    compile start schemas options =
      extend { registry := start } (Addition.all schemas options) := by
  rw [extend, Addition.all, List.foldl_map]
  rfl

/-! ## What a name stands for -/

theorem codec?_eq_some_iff
    {catalog : Catalog} {name : String} {codec : RecordCodec} :
    catalog.codec? name = some codec ↔
      codec.name = name ∧
        ∃ before behind,
          catalog.codecs = before ++ codec :: behind ∧
            ∀ other ∈ before, other.name ≠ name := by
  rw [codec?, List.find?_eq_some_iff_append]
  simp

theorem latest?_eq_some_iff
    {catalog : Catalog} {name : String} {codec : RecordCodec} :
    catalog.latest? name = some codec ↔
      codec.name = name ∧
        ∃ before behind,
          catalog.codecs = before ++ codec :: behind ∧
            ∀ other ∈ behind, other.name ≠ name := by
  rw [latest?, List.find?_eq_some_iff_append]
  constructor
  · rintro ⟨named, behind, before, same, none⟩
    refine ⟨by simpa using named, before.reverse, behind.reverse, ?_, ?_⟩
    · rw [← List.reverse_reverse catalog.codecs, same]
      simp
    · intro other member
      simpa using none other (List.mem_reverse.mp member)
  · rintro ⟨named, before, behind, same, none⟩
    refine ⟨by simpa using named, behind.reverse, before.reverse, ?_, ?_⟩
    · rw [same]
      simp
    · intro other member
      simpa using none other (List.mem_reverse.mp member)

theorem latest?_eq_none_iff {catalog : Catalog} {name : String} :
    catalog.latest? name = none ↔
      ∀ codec ∈ catalog.codecs, codec.name ≠ name := by
  simp [latest?]

namespace MadeBy

variable {start : Registry} {history : List Entry} {catalog : Catalog}

/-- A name stands for the last record that compiled under it, and for what it stood
for at the start if there is none. -/
theorem get?_eq_some_iff
    (made : MadeBy start history catalog) {name : String} {answer : TypeDecl} :
    catalog.registry.get? name = some answer ↔
      (∃ codec before behind,
        catalog.codecs = before ++ codec :: behind ∧
          codec.name = name ∧
            (∀ other ∈ behind, other.name ≠ name) ∧
              answer = .bound name codec.toComposite ∧
                codec.toComposite.contract = codec.generated.contract) ∨
        (∀ codec ∈ catalog.codecs, codec.name ≠ name) ∧
          start.get? name = some answer := by
  rw [made.latest]
  cases last : catalog.latest? name with
  | none =>
      have unused := latest?_eq_none_iff.mp last
      constructor
      · intro answered
        exact Or.inr ⟨unused, answered⟩
      · rintro (⟨codec, before, behind, same, named, _⟩ | ⟨_, answered⟩)
        · have member : codec ∈ catalog.codecs := by
            rw [same]
            exact List.mem_append_right _ List.mem_cons_self
          exact absurd named (unused codec member)
        · exact answered
  | some latest =>
      obtain ⟨named, before, behind, same, none⟩ := latest?_eq_some_iff.mp last
      constructor
      · intro answered
        cases answered
        exact Or.inl ⟨latest, before, behind, same, named, none, rfl,
          rfl⟩
      · rintro
          (⟨codec, before, behind, same, named, none, rfl, _⟩ | ⟨unused, _⟩)
        · have again : catalog.latest? name = some codec :=
            latest?_eq_some_iff.mpr ⟨named, before, behind, same, none⟩
          cases last.symm.trans again
          rfl
        · have member : latest ∈ catalog.codecs := by
            rw [same]
            exact List.mem_append_right _ List.mem_cons_self
          exact absurd named (unused latest member)

end MadeBy

/-- The flag of an addition tells whether it leaves one more record behind. -/
theorem accepts_iff_exists_added
    {catalog : Catalog} {schema : Schema} {options : GenerateOptions} :
    catalog.accepts schema options = true ↔
      ∃ codec,
        (catalog.add schema options).codecs = catalog.codecs ++ [codec] := by
  cases tried : RecordCodec.compile schema catalog.registry options with
  | ok codec =>
      have accepted : catalog.accepts schema options = true := by
        rw [accepts, tried]
        rfl
      exact iff_of_true accepted ⟨codec, by rw [add, tried]⟩
  | error cause =>
      apply iff_of_false
      · rw [accepts, tried]
        exact Bool.false_ne_true
      · intro more
        obtain ⟨codec, added⟩ := more
        rw [add, tried] at added
        have nothing : [codec] = [] :=
          List.append_cancel_left (added.symm.trans (List.append_nil _).symm)
        exact List.cons_ne_nil codec [] nothing

/-- An addition that is refused leaves its error behind and nothing else. -/
theorem add_of_refused
    {catalog : Catalog} {schema : Schema} {options : GenerateOptions}
    (refused : catalog.accepts schema options = false) :
    ∃ cause,
      RecordCodec.compile schema catalog.registry options = .error cause ∧
        catalog.add schema options =
          { catalog with errors := catalog.errors ++ [cause] } := by
  rw [accepts] at refused
  cases tried : RecordCodec.compile schema catalog.registry options with
  | ok codec =>
      rw [tried] at refused
      cases refused
  | error cause => exact ⟨cause, rfl, by rw [add, tried]⟩

end Catalog

/-! ## Names of a bundle -/

/-- A search by name finds the only record of the name, from whichever end. -/
private theorem RecordCodec.find?_of_only
    {codecs : List RecordCodec} {codec : RecordCodec} {name : String}
    (member : codec ∈ codecs) (named : codec.name = name)
    (only : ∀ other ∈ codecs, other.name = name → other = codec) :
    codecs.find? (fun other => other.name == name) = some codec := by
  cases found : codecs.find? fun other => other.name == name with
  | none =>
      have unnamed := List.find?_eq_none.mp found codec member
      exact absurd (by simpa using named) unnamed
  | some other =>
      have otherNamed : other.name = name := by
        simpa using List.find?_some found
      rw [only other (List.mem_of_find?_eq_some found) otherNamed]

/-- The records of a bundle have names of their own, so what a name stands for is the
record that is fetched by it. -/
private theorem Bundle.codec?_of_records
    {bundle : Bundle} {catalog : Catalog}
    (compiles : bundle.catalog = .ok catalog) {name : String}
    (recorded : name ∈ catalog.records) :
    ∃ codec,
      catalog.codec? name = some codec ∧
        catalog.registry.get? name = some (.bound name codec.toComposite) := by
  obtain ⟨distinct, built⟩ := builtFrom_of_catalog compiles
  obtain ⟨codec, member, named⟩ := List.mem_map.mp recorded
  have only :
      ∀ other ∈ catalog.codecs, other.name = name → other = codec := by
    intro other otherMember otherNamed
    exact built.eq_of_name distinct otherMember member
      (otherNamed.trans named.symm)
  have fetched : catalog.codec? name = some codec :=
    RecordCodec.find?_of_only member named only
  have last : catalog.latest? name = some codec := by
    apply RecordCodec.find?_of_only (List.mem_reverse.mpr member) named
    intro other otherMember
    exact only other (List.mem_reverse.mp otherMember)
  obtain ⟨_, start, _, same⟩ := start_of_catalog compiles
  rw [Catalog.compile_eq_extend] at same
  obtain ⟨_, _, made⟩ :=
    Catalog.MadeBy.nothing.extend
      (Addition.all (bundle.records.map RecordDef.schema) bundle.options)
  rw [same] at made
  refine ⟨codec, fetched, ?_⟩
  rw [made.latest, last]
  rfl

private theorem Bundle.names_of_records
    {bundle : Bundle} {catalog : Catalog}
    (compiles : bundle.catalog = .ok catalog) :
    catalog.records.Nodup ∧
      ∀ name ∈ catalog.records, name ∉ bundle.enums.map EnumDef.name := by
  obtain ⟨distinct, built⟩ := builtFrom_of_catalog compiles
  obtain ⟨_, records, apart⟩ := List.nodup_append.mp distinct
  refine ⟨built.ordered.nodup records, ?_⟩
  intro name recorded isEnum
  have isRecord := built.ordered.subset recorded
  exact absurd rfl (apart name isEnum name isRecord)

namespace Catalog

/-- The state of a catalog tells its history.  Every record handed to it is kept
once, compiled against what stood before it or refused with an error of its name; a
name stands for the last record that compiled under it and fetches the first; a
refusal only leaves its error.  In the catalog of a bundle the two lookups agree. -/
theorem state_tells_history :
    (∀ (start : Registry) (schemas : List Schema) (options : GenerateOptions)
        (later : List Addition) (catalog : Catalog),
      (compile start schemas options).extend later = catalog →
        (∃ history : List Entry,
          history.map Entry.toAddition =
              Addition.all schemas options ++ later ∧
            catalog.MadeBy start history) ∧
          (∀ name answer,
            catalog.registry.get? name = some answer ↔
              (∃ codec before behind,
                catalog.codecs = before ++ codec :: behind ∧
                  codec.name = name ∧
                    (∀ other ∈ behind, other.name ≠ name) ∧
                      answer = .bound name codec.toComposite ∧
                        codec.toComposite.contract =
                          codec.generated.contract) ∨
                (∀ codec ∈ catalog.codecs, codec.name ≠ name) ∧
                  start.get? name = some answer) ∧
            (∀ name codec,
              catalog.codec? name = some codec ↔
                codec.name = name ∧
                  ∃ before behind,
                    catalog.codecs = before ++ codec :: behind ∧
                      ∀ other ∈ before, other.name ≠ name) ∧
              ∀ schema options,
                catalog.accepts schema options = false →
                  ∃ cause,
                    RecordCodec.compile schema catalog.registry options =
                        .error cause ∧
                      catalog.add schema options =
                        { catalog with errors := catalog.errors ++ [cause] }) ∧
      ∀ (bundle : Bundle) (catalog : Catalog),
        bundle.catalog = .ok catalog →
          catalog.records.Nodup ∧
            (∀ name ∈ catalog.records,
              name ∉ bundle.enums.map EnumDef.name) ∧
              ∀ name ∈ catalog.records,
                ∃ codec,
                  catalog.codec? name = some codec ∧
                    catalog.registry.get? name =
                      some (.bound name codec.toComposite) := by
  constructor
  · intro start schemas options later catalog same
    rw [compile_eq_extend, ← extend_append] at same
    obtain ⟨history, additions, made⟩ :=
      MadeBy.nothing.extend (Addition.all schemas options ++ later)
    rw [same] at made
    refine ⟨⟨history, additions, made⟩, ?_, ?_, ?_⟩
    · intro name answer
      exact made.get?_eq_some_iff
    · intro name codec
      exact codec?_eq_some_iff
    · intro schema options refused
      exact add_of_refused refused
  · intro bundle catalog compiles
    obtain ⟨distinct, apart⟩ := Bundle.names_of_records compiles
    refine ⟨distinct, apart, ?_⟩
    intro name recorded
    exact Bundle.codec?_of_records compiles recorded

end Catalog

namespace Drawing

/-- A record that refers to a type nobody declares. -/
def lost : Schema :=
  (Schema.builder "Point").field "place" (.named "Nowhere")

/-- The name of the point is tried again, at first in vain. -/
def again : List Addition :=
  [{ schema := lost },
    { schema := (Schema.builder "Point").field "x" (.primitive .u8) }]

theorem history_of_lines_again :
    ((∃ history : List Entry,
        history.map Entry.toAddition = Addition.all [point, line] {} ++ again ∧
          (lines.extend again).MadeBy colours history) ∧
      ∃ codec before behind,
        (lines.extend again).codecs = before ++ codec :: behind ∧
          behind = [] ∧
            (lines.extend again).registry.get? "Point" =
              some (.bound "Point" codec.toComposite)) ∧
      (∃ cause, lines.add lost {} = { lines with errors := [cause] }) ∧
        described.catalog = .ok lines ∧
          ∃ codec,
            lines.codec? "Line" = some codec ∧
              lines.registry.get? "Line" =
                some (.bound "Line" codec.toComposite) := by
  obtain ⟨ofAdditions, ofBundle⟩ := Catalog.state_tells_history
  obtain ⟨history, standsFor, _, _⟩ :=
    ofAdditions colours [point, line] {} again _ rfl
  obtain ⟨_, _, _, refusal⟩ := ofAdditions colours [point, line] {} [] lines rfl
  obtain ⟨cause, _, left⟩ := refusal lost {} rfl
  obtain ⟨_, _, agree⟩ := ofBundle described lines catalog_described
  refine ⟨⟨history, _, [_, _], [], rfl, rfl, ?_⟩, ⟨cause, left⟩,
    catalog_described, agree "Line" (by decide)⟩
  exact (standsFor "Point" _).mpr
    (Or.inl ⟨_, [_, _], [], rfl, rfl, List.forall_mem_nil _, rfl, rfl⟩)

end Drawing

end PackedRecord
