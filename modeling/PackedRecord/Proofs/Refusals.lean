import Mathlib.Data.List.Induction
import Mathlib.Data.List.Nodup
import PackedRecord.Proofs.Compilation

/-!
# Refused schemas

A schema for which no codec can be generated may have several faults at once: its
record cannot be augmented, a field is misnamed, its directives contradict each other,
a field's type cannot be stored.  Which of them is reported follows from the schema
alone, and without a fault the codecs are generated.

What is wrong with a name is said here without the check that looks for it, as
`Field.Faulty` does for a type.  Each check is then shown to succeed and to fail exactly
so, and the cause of a refusal is the first fault in the order of the checks.
-/

namespace PackedRecord

/-! ## Names of fields -/

namespace Source

/-- A letter or an underscore. -/
def Letter (character : Char) : Prop :=
  ('A' ≤ character ∧ character ≤ 'Z') ∨
    ('a' ≤ character ∧ character ≤ 'z') ∨ character = '_'

def Digit (character : Char) : Prop :=
  '0' ≤ character ∧ character ≤ '9'

/-- A letter or an underscore, followed by letters, digits and underscores. -/
def Identifier (name : String) : Prop :=
  ∃ first rest,
    name.toList = first :: rest ∧ Letter first ∧
      ∀ character ∈ rest, Letter character ∨ Digit character

theorem letter_iff {character : Char} :
    (character.isAlpha || character == '_') = true ↔ Letter character := by
  have upper :
      character.isUpper = true ↔ 'A' ≤ character ∧ character ≤ 'Z' :=
    decide_eq_true_iff
  have lower :
      character.isLower = true ↔ 'a' ≤ character ∧ character ≤ 'z' :=
    Bool.and_eq_true_iff.trans
      (and_congr decide_eq_true_iff decide_eq_true_iff)
  have alpha :
      character.isAlpha = true ↔
        character.isUpper = true ∨ character.isLower = true :=
    Bool.or_eq_true_iff
  rw [Bool.or_eq_true, beq_iff_eq, alpha, upper, lower, Letter, or_assoc]

theorem letter_or_digit_iff {character : Char} :
    (character.isAlphanum || character == '_') = true ↔
      Letter character ∨ Digit character := by
  have digit : character.isDigit = true ↔ Digit character :=
    Bool.and_eq_true_iff.trans
      (and_congr decide_eq_true_iff decide_eq_true_iff)
  rw [← letter_iff, ← digit, Char.isAlphanum]
  simp only [Bool.or_eq_true]
  exact or_right_comm

theorem isIdentifier_iff {name : String} :
    isIdentifier name = true ↔ Identifier name := by
  unfold isIdentifier Identifier
  cases name.toList with
  | nil => simp
  | cons first rest =>
      rw [Bool.and_eq_true, letter_iff, List.all_eq_true]
      simp only [letter_or_digit_iff, List.cons.injEq]
      constructor
      · rintro ⟨starts, goesOn⟩
        exact ⟨first, rest, ⟨rfl, rfl⟩, starts, goesOn⟩
      · rintro ⟨_, _, ⟨rfl, rfl⟩, starts, goesOn⟩
        exact ⟨starts, goesOn⟩

theorem isFieldName_iff {name : String} :
    isFieldName name = true ↔ Identifier name ∧ name ∉ unusableNames := by
  rw [isFieldName, Bool.and_eq_true, isIdentifier_iff, Bool.not_eq_true',
    List.contains_eq_mem, decide_eq_false_iff_not]

end Source

namespace Field

def localName (field : Field) : String :=
  Source.localName field.name

/-- A field cannot have its name behind the given earlier fields. -/
inductive Misnamed (earlier : List Field) (field : Field) : Prop
  | malformed (noIdentifier : ¬ Source.Identifier field.name)
  | unusable (reserved : field.name ∈ Source.unusableNames)
  | clashing {other : Field} (member : other ∈ earlier)
      (same : other.localName = field.localName)

/-- Every field has a usable name, and a local of its own. -/
def WellNamed (fields : List Field) : Prop :=
  (∀ field ∈ fields,
      Source.Identifier field.name ∧ field.name ∉ Source.unusableNames) ∧
    (fields.map localName).Nodup

theorem not_misnamed_iff {earlier : List Field} {field : Field} :
    ¬ field.Misnamed earlier ↔
      (Source.Identifier field.name ∧ field.name ∉ Source.unusableNames) ∧
        field.localName ∉ earlier.map localName := by
  constructor
  · intro fine
    refine ⟨⟨?_, fun reserved => fine (.unusable reserved)⟩, ?_⟩
    · by_contra noIdentifier
      exact fine (.malformed noIdentifier)
    · intro taken
      obtain ⟨other, member, same⟩ := List.mem_map.mp taken
      exact fine (.clashing member same)
  · rintro ⟨⟨wellFormed, allowed⟩, free⟩ misnamed
    cases misnamed with
    | malformed noIdentifier => exact noIdentifier wellFormed
    | unusable reserved => exact allowed reserved
    | clashing member same => exact free (List.mem_map.mpr ⟨_, member, same⟩)

private theorem wellNamed_nil : WellNamed [] :=
  ⟨fun _ member => (List.not_mem_nil member).elim, List.nodup_nil⟩

private theorem WellNamed.of_append {earlier later : List Field}
    (named : WellNamed (earlier ++ later)) : WellNamed earlier := by
  obtain ⟨usable, apart⟩ := named
  rw [List.map_append] at apart
  exact ⟨fun field member => usable field (List.mem_append_left _ member),
    (List.nodup_append.mp apart).1⟩

/-- Behind well-named fields one more is, unless it is misnamed there. -/
theorem wellNamed_concat_iff {earlier : List Field} {field : Field} :
    WellNamed (earlier ++ [field]) ↔
      WellNamed earlier ∧ ¬ field.Misnamed earlier := by
  have locals :
      ((earlier ++ [field]).map localName).Nodup ↔
        (earlier.map localName).Nodup ∧
          field.localName ∉ earlier.map localName := by
    rw [List.map_append, List.map_singleton, ← List.concat_eq_append,
      List.nodup_concat, and_comm]
  rw [not_misnamed_iff, WellNamed, WellNamed, locals, List.forall_mem_append,
    List.forall_mem_singleton]
  exact and_and_and_comm

/-- Fields that are not all well named have a first one that is misnamed. -/
private theorem wellNamed_or_misnamed (fields : List Field) :
    WellNamed fields ∨
      ∃ earlier field later,
        fields = earlier ++ field :: later ∧
          WellNamed earlier ∧ field.Misnamed earlier := by
  induction fields using List.reverseRecOn with
  | nil => exact Or.inl wellNamed_nil
  | append_singleton earlier field inductionHypothesis =>
      rcases inductionHypothesis with
        named | ⟨before, first, between, split, named, misnamed⟩
      · by_cases misnamed : field.Misnamed earlier
        · exact Or.inr ⟨earlier, field, [], rfl, named, misnamed⟩
        · exact Or.inl (wellNamed_concat_iff.mpr ⟨named, misnamed⟩)
      · refine Or.inr
          ⟨before, first, between ++ [field], ?_, named, misnamed⟩
        rw [split, List.append_assoc, List.cons_append]

end Field

namespace Schema

section Names

variable {earlier between rest : List Field} {field : Field}

private theorem misnamedField?_cons_of_misnamed
    (misnamed : field.Misnamed earlier) :
    misnamedField? (earlier.map Field.localName).reverse (field :: rest) =
      some field := by
  apply if_neg
  rw [Source.isFieldName_iff, List.mem_reverse]
  intro fine
  exact Field.not_misnamed_iff.mpr fine misnamed

private theorem misnamedField?_cons_of_not_misnamed
    (fine : ¬ field.Misnamed earlier) :
    misnamedField? (earlier.map Field.localName).reverse (field :: rest) =
      misnamedField? ((earlier ++ [field]).map Field.localName).reverse
        rest := by
  have more :
      ((earlier ++ [field]).map Field.localName).reverse =
        field.localName :: (earlier.map Field.localName).reverse := by
    rw [List.map_append, List.reverse_append]
    rfl
  rw [more]
  apply if_pos
  rw [Source.isFieldName_iff, List.mem_reverse]
  exact Field.not_misnamed_iff.mp fine

/-- The check passes by well-named fields, and their locals are taken behind them. -/
private theorem misnamedField?_append
    (named : Field.WellNamed (earlier ++ between)) :
    misnamedField? (earlier.map Field.localName).reverse (between ++ rest) =
      misnamedField? ((earlier ++ between).map Field.localName).reverse
        rest := by
  induction between generalizing earlier with
  | nil => rw [List.append_nil, List.nil_append]
  | cons field between inductionHypothesis =>
      rw [List.append_cons] at named ⊢
      have fine := (Field.wellNamed_concat_iff.mp named.of_append).2
      rw [List.cons_append, misnamedField?_cons_of_not_misnamed fine]
      exact inductionHypothesis named

end Names

section Check

variable {schema : Schema}

private theorem checkFieldNames_of_wellNamed
    (named : Field.WellNamed schema.fields) :
    schema.checkFieldNames = .ok () := by
  have found : misnamedField? [] (schema.fields ++ []) = none :=
    @misnamedField?_append [] schema.fields [] named
  rw [List.append_nil] at found
  rw [checkFieldNames, found]

private theorem checkFieldNames_of_misnamed
    {earlier later : List Field} {field : Field}
    (split : schema.fields = earlier ++ field :: later)
    (named : Field.WellNamed earlier) (misnamed : field.Misnamed earlier) :
    schema.checkFieldNames =
      .error (.invalidFieldName schema.name field.name) := by
  have found :
      misnamedField? [] (earlier ++ field :: later) = some field :=
    (@misnamedField?_append [] earlier (field :: later) named).trans
      (misnamedField?_cons_of_misnamed misnamed)
  rw [checkFieldNames, split, found]

end Check

end Schema

/-! ## Types of fields -/

/-- A field is classified under its name, by what its type means. -/
def Field.ClassifiedAs (registry : Registry) (variants : List Variant)
    (field : Field) (made : ClassifiedField) : Prop :=
  made.name = field.name ∧ field.type.Means registry variants made.kind

namespace Schema

/-- All fields of a record have a meaning for the variants, and are classified by
it. -/
def Meant (schema : Schema) (registry : Registry) (variants : List Variant)
    (fields : List ClassifiedField) : Prop :=
  List.Forall₂ (Field.ClassifiedAs registry variants) schema.fields fields

section Classify

variable {schema : Schema} {registry : Registry} {variants : List Variant}

theorem classify_eq_ok_iff {fields : List ClassifiedField} :
    schema.classify registry variants = .ok fields ↔
      schema.Meant registry variants fields := by
  constructor
  · intro classified
    exact (forall₂_of_classify classified).imp fun _ _ ⟨named, one⟩ =>
      ⟨named, Field.classify_eq_ok_iff.mp one⟩
  · intro meant
    rw [classify, mapM_eq_ok_iff]
    refine meant.imp fun field made ⟨named, means⟩ => ?_
    rw [bind_eq_ok]
    refine ⟨made.kind, Field.classify_of_means means, ?_⟩
    rw [pure_eq_ok, ← named]

theorem classify_eq_error_iff {cause : GenerateError} :
    schema.classify registry variants = .error cause ↔
      ∃ earlier field later,
        schema.fields = earlier ++ field :: later ∧
          (∀ other ∈ earlier,
              ∃ kind, other.type.Means registry variants kind) ∧
            field.Faulty schema.name registry variants cause := by
  have passes :
      ∀ field : Field,
        (∃ made : ClassifiedField,
            (do
              let kind ← field.classify schema.name registry variants
              return { name := field.name, kind }) = Except.ok made) ↔
          ∃ kind, field.type.Means registry variants kind := by
    intro field
    simp only [bind_eq_ok, pure_eq_ok, Field.classify_eq_ok_iff]
    constructor
    · rintro ⟨_, kind, means, _⟩
      exact ⟨kind, means⟩
    · rintro ⟨kind, means⟩
      exact ⟨_, kind, means, rfl⟩
  have fails :
      ∀ field : Field,
        (do
            let kind ← field.classify schema.name registry variants
            return { name := field.name, kind : ClassifiedField }) =
            Except.error cause ↔
          field.Faulty schema.name registry variants cause := by
    intro field
    rw [bind_eq_error, Field.classify_eq_error_iff]
    constructor
    · rintro (faulty | ⟨_, _, absurdly⟩)
      · exact faulty
      · cases absurdly
    · exact Or.inl
  simp only [classify, mapM_eq_error_iff, passes, fails]

end Classify

end Schema

/-! ## Planning what was classified -/

namespace Layout

variable {registry : Registry} {variants : List Variant} {variant : Variant}

private theorem exists_access
    {type : TypeRef} {field : ClassifiedField}
    (means : type.Means registry variants field.kind)
    (member : variant ∈ variants) (record : String) (next : Nat) :
    ∃ reached, access record variant next field = .ok reached := by
  rcases field with ⟨name, kind⟩
  cases means with
  | composite found offered usable =>
      obtain ⟨operation, selected⟩ :=
        Option.isSome_iff_exists.mp
          (Contract.isSome_select_iff.mpr (usable variant member))
      simp only [access, selected]
      exact ⟨_, rfl⟩
  | _ => exact ⟨_, rfl⟩

private theorem exists_placed
    {declared : List Field} {fields : List ClassifiedField}
    (meant :
      List.Forall₂ (Field.ClassifiedAs registry variants) declared fields)
    (member : variant ∈ variants) (record : String) (start : Offset) :
    ∃ placed stop,
      placeFrom (· + ·) record variant start fields = .ok (placed, stop) := by
  induction meant generalizing start with
  | nil => exact ⟨[], start, rfl⟩
  | cons first _ inductionHypothesis =>
      obtain ⟨reached, accessed⟩ :=
        exists_access first.2 member record start.lengths.length
      obtain ⟨placed, stop, rest⟩ :=
        inductionHypothesis (start.after reached.width)
      exact ⟨_, stop,
        placeFrom_cons_eq_ok.mpr ⟨reached, placed, accessed, rest, rfl⟩⟩

/-- The planner never refuses the fields that were classified for its variant. -/
theorem exists_plan
    {schema : Schema} {fields : List ClassifiedField}
    (meant : schema.Meant registry variants fields)
    (member : variant ∈ variants) (record : String) :
    ∃ layout, plan record fields variant = .ok layout := by
  obtain ⟨placed, stop, places⟩ := exists_placed meant member record {}
  rw [plan, layOut, places]
  exact ⟨_, rfl⟩

end Layout

/-! ## The order of blame -/

namespace Schema

/-- The cause for which a schema is refused: its first fault in the order of the
checks, and in the order of the fields. -/
inductive Refused (schema : Schema) (registry : Registry) : GenerateError → Prop
  | fixed (closed : schema.augmentable = false) :
      Refused schema registry (.notAugmentable schema.name)
  | misnamed {earlier later : List Field} {field : Field}
      (augmentable : schema.augmentable = true)
      (split : schema.fields = earlier ++ field :: later)
      (named : Field.WellNamed earlier)
      (misnamed : field.Misnamed earlier) :
      Refused schema registry (.invalidFieldName schema.name field.name)
  | ambiguous (augmentable : schema.augmentable = true)
      (named : Field.WellNamed schema.fields)
      (little : schema.directives.littleEndian = true)
      (big : schema.directives.bigEndian = true) :
      Refused schema registry (.ambiguousOrder schema.name)
  | faulty {variants : List Variant} {earlier later : List Field}
      {field : Field} {cause : GenerateError}
      (augmentable : schema.augmentable = true)
      (named : Field.WellNamed schema.fields)
      (directed : schema.variants = .ok variants)
      (split : schema.fields = earlier ++ field :: later)
      (meant :
        ∀ other ∈ earlier, ∃ kind, other.type.Means registry variants kind)
      (faulty : field.Faulty schema.name registry variants cause) :
      Refused schema registry cause

/-- Whatever a schema is refused for, the error is about its record. -/
theorem Refused.record_eq
    {schema : Schema} {registry : Registry} {cause : GenerateError}
    (refused : schema.Refused registry cause) :
    cause.record = schema.name := by
  cases refused with
  | fixed closed => rfl
  | misnamed augmentable split named misnamed => rfl
  | ambiguous augmentable named little big => rfl
  | faulty augmentable named directed split meant faulty =>
      cases faulty <;> rfl

/-- A schema without a fault: its variants, and its fields as they are classified. -/
structure Valid (schema : Schema) (registry : Registry)
    (variants : List Variant) (fields : List ClassifiedField) : Prop where
  augmentable : schema.augmentable = true
  named : Field.WellNamed schema.fields
  directed : schema.variants = .ok variants
  meant : schema.Meant registry variants fields

/-- The pairs emitted from the layouts of the variants, one for each in order. -/
def Emitted (record : String) (fields : List ClassifiedField) (naming : Naming)
    (variants : List Variant) (pairs : List CodecPair) : Prop :=
  List.Forall₂
    (fun variant pair =>
      ∃ layout,
        Layout.plan record fields variant = .ok layout ∧
          pair = layout.emit naming)
    variants pairs

section Generate

variable {schema : Schema} {registry : Registry} {options : GenerateOptions}

theorem variants_eq_error_iff {cause : GenerateError} :
    schema.variants = .error cause ↔
      schema.directives.littleEndian = true ∧
        schema.directives.bigEndian = true ∧
          cause = .ambiguousOrder schema.name := by
  unfold Schema.variants
  cases schema.directives.littleEndian <;>
    cases schema.directives.bigEndian <;> simp [eq_comm]

/-- What is left to do once the names and the directives are in order. -/
theorem generate_of_directed
    {variants : List Variant} (augmentable : schema.augmentable = true)
    (named : Field.WellNamed schema.fields)
    (directed : schema.variants = .ok variants) :
    schema.generate registry options =
      (do
        let fields ← schema.classify registry variants
        let codecs ← variants.mapM (schema.generatePair fields options)
        return { record := schema.name, codecs }) := by
  rw [generate, if_pos augmentable, checkFieldNames_of_wellNamed named,
    directed]
  rfl

theorem generate_of_refused
    {cause : GenerateError} (refused : schema.Refused registry cause) :
    schema.generate registry options = .error cause := by
  cases refused with
  | fixed closed =>
      rw [generate, closed]
      rfl
  | misnamed augmentable split named misnamed =>
      rw [generate, if_pos augmentable,
        checkFieldNames_of_misnamed split named misnamed]
      rfl
  | ambiguous augmentable named little big =>
      have contradictory := variants_eq_error_iff.mpr ⟨little, big, rfl⟩
      rw [generate, if_pos augmentable, checkFieldNames_of_wellNamed named,
        contradictory]
      rfl
  | faulty augmentable named directed split meant faulty =>
      have stops :=
        classify_eq_error_iff.mpr ⟨_, _, _, split, meant, faulty⟩
      rw [generate_of_directed augmentable named directed, stops]
      rfl

theorem generatePair_eq_ok_iff
    {fields : List ClassifiedField} {variant : Variant} {pair : CodecPair} :
    schema.generatePair fields options variant = .ok pair ↔
      ∃ layout,
        Layout.plan schema.name fields variant = .ok layout ∧
          pair = layout.emit options.naming := by
  simp only [generatePair, bind_eq_ok, pure_eq_ok, eq_comm (b := pair)]

theorem generatePairs_eq_ok_iff
    {fields : List ClassifiedField} {variants : List Variant}
    {pairs : List CodecPair} :
    variants.mapM (schema.generatePair fields options) = .ok pairs ↔
      Emitted schema.name fields options.naming variants pairs := by
  simp only [mapM_eq_ok_iff, generatePair_eq_ok_iff, Emitted]

theorem exists_emitted
    {variants : List Variant} {fields : List ClassifiedField}
    (meant : schema.Meant registry variants fields)
    (options : GenerateOptions) :
    ∃ pairs, Emitted schema.name fields options.naming variants pairs := by
  cases generates : variants.mapM (schema.generatePair fields options) with
  | error cause =>
      obtain ⟨variant, member, failed⟩ := exists_item_of_mapM_eq_error generates
      obtain ⟨layout, planned⟩ := Layout.exists_plan meant member schema.name
      have succeeds :
          schema.generatePair fields options variant =
            .ok (layout.emit options.naming) :=
        generatePair_eq_ok_iff.mpr ⟨layout, planned, rfl⟩
      cases failed.symm.trans succeeds
  | ok pairs => exact ⟨pairs, generatePairs_eq_ok_iff.mp generates⟩

theorem generate_of_valid
    {variants : List Variant} {fields : List ClassifiedField}
    (valid : schema.Valid registry variants fields) {pairs : List CodecPair}
    (emitted :
      Emitted schema.name fields options.naming variants pairs) :
    schema.generate registry options =
      .ok { record := schema.name, codecs := pairs } := by
  rw [generate_of_directed valid.augmentable valid.named valid.directed,
    classify_eq_ok_iff.mpr valid.meant]
  have generates := generatePairs_eq_ok_iff.mpr emitted
  exact bind_eq_ok.mpr ⟨fields, rfl, bind_eq_ok.mpr ⟨pairs, generates, rfl⟩⟩

theorem valid_or_refused (schema : Schema) (registry : Registry) :
    (∃ variants fields, schema.Valid registry variants fields) ∨
      ∃ cause, schema.Refused registry cause := by
  by_cases augmentable : schema.augmentable = true
  · rcases Field.wellNamed_or_misnamed schema.fields with
      named | ⟨earlier, field, later, split, named, misnamed⟩
    · cases directed : schema.variants with
      | error cause =>
          obtain ⟨little, big, _⟩ := variants_eq_error_iff.mp directed
          exact Or.inr ⟨_, .ambiguous augmentable named little big⟩
      | ok variants =>
          cases classified : schema.classify registry variants with
          | ok fields =>
              have meant := classify_eq_ok_iff.mp classified
              exact Or.inl
                ⟨variants, fields, augmentable, named, directed, meant⟩
          | error cause =>
              obtain ⟨earlier, field, later, split, meant, faulty⟩ :=
                classify_eq_error_iff.mp classified
              exact Or.inr
                ⟨cause, .faulty augmentable named directed split meant faulty⟩
    · exact Or.inr ⟨_, .misnamed augmentable split named misnamed⟩
  · exact Or.inr ⟨_, .fixed (Bool.eq_false_iff.mpr augmentable)⟩

theorem generate_eq_error_iff {cause : GenerateError} :
    schema.generate registry options = .error cause ↔
      schema.Refused registry cause := by
  refine ⟨?_, generate_of_refused⟩
  intro failed
  rcases valid_or_refused schema registry with
    ⟨variants, fields, valid⟩ | ⟨other, refused⟩
  · obtain ⟨pairs, emitted⟩ := exists_emitted valid.meant options
    cases (generate_of_valid valid emitted).symm.trans failed
  · cases (generate_of_refused refused).symm.trans failed
    exact refused

theorem generate_eq_ok_iff {generated : Generated} :
    schema.generate registry options = .ok generated ↔
      ∃ variants fields,
        schema.Valid registry variants fields ∧
          generated.record = schema.name ∧
            Emitted schema.name fields options.naming variants
              generated.codecs := by
  rcases generated with ⟨record, codecs⟩
  constructor
  · intro done
    rcases valid_or_refused schema registry with
      ⟨variants, fields, valid⟩ | ⟨cause, refused⟩
    · obtain ⟨pairs, emitted⟩ := exists_emitted valid.meant options
      cases (generate_of_valid valid emitted).symm.trans done
      exact ⟨variants, fields, valid, rfl, emitted⟩
    · cases (generate_of_refused refused).symm.trans done
  · rintro ⟨variants, fields, valid, rfl, emitted⟩
    exact generate_of_valid valid emitted

/-- Generation is refused exactly for a fault of the schema, with the first one in the
order of the checks as its cause, and yields the pairs of the variants otherwise.  The
planner has no part in it: for fields that were classified it finds a layout. -/
theorem generate_blames_first_fault
    (schema : Schema) (registry : Registry) (options : GenerateOptions) :
    (∀ cause,
        schema.generate registry options = .error cause ↔
          schema.Refused registry cause) ∧
      (∀ generated,
          schema.generate registry options = .ok generated ↔
            ∃ variants fields,
              schema.Valid registry variants fields ∧
                generated.record = schema.name ∧
                  Emitted schema.name fields options.naming variants
                    generated.codecs) ∧
        ((∃ generated, schema.generate registry options = .ok generated) ↔
            ∃ variants fields, schema.Valid registry variants fields) ∧
          ∀ variants fields,
            schema.classify registry variants = .ok fields →
              ∀ record, ∀ variant ∈ variants,
                ∃ layout, Layout.plan record fields variant = .ok layout := by
  refine ⟨fun _ => generate_eq_error_iff, fun _ => generate_eq_ok_iff, ?_, ?_⟩
  · constructor
    · rintro ⟨generated, done⟩
      obtain ⟨variants, fields, valid, _⟩ := generate_eq_ok_iff.mp done
      exact ⟨variants, fields, valid⟩
    · rintro ⟨variants, fields, valid⟩
      obtain ⟨pairs, emitted⟩ := exists_emitted valid.meant options
      exact ⟨_, generate_of_valid valid emitted⟩
  · intro variants fields classified record variant member
    exact Layout.exists_plan (classify_eq_ok_iff.mp classified) member record

end Generate

end Schema

/-! ## A record with several faults -/

namespace Drawing

/-- A record with faults of several kinds behind a field that is in order.  The locals
of its second and third field clash, their names do not. -/
def muddle : Schema :=
  (Schema.builder "Muddle").withFields
      [("dashed", .primitive .u8), ("buffer", .named "Plane"),
        ("buffer_", .array (.primitive .u8) 4), ("2nd", .primitive .f64)]
    |>.withDirectives { littleEndian := true, bigEndian := true }

end Drawing

/-- Of all the faults of the record the clash is the first.  The line has none, and its
fields are planned. -/
theorem Schema.generate_blames_first_fault_of_muddle :
    Drawing.muddle.Refused Drawing.points.registry
        (.invalidFieldName "Muddle" "buffer_") ∧
      ∃ fields,
        Drawing.line.classify Drawing.points.registry
            [{ order := .little, suffixed := true },
              { order := .big, suffixed := true }] =
          .ok fields ∧
          ∃ layout,
            Layout.plan "Line" fields { order := .big, suffixed := true } =
              .ok layout := by
  have muddled :
      Drawing.muddle.generate Drawing.points.registry {} =
        .error (.invalidFieldName "Muddle" "buffer_") :=
    rfl
  obtain ⟨fields, classified⟩ :
      ∃ fields,
        Drawing.line.classify Drawing.points.registry
            [{ order := .little, suffixed := true },
              { order := .big, suffixed := true }] =
          .ok fields :=
    ⟨_, rfl⟩
  obtain ⟨refuses, _, _, _⟩ :=
    generate_blames_first_fault Drawing.muddle Drawing.points.registry {}
  obtain ⟨_, _, _, plans⟩ :=
    generate_blames_first_fault Drawing.line Drawing.points.registry {}
  have planned :=
    plans _ fields classified "Line" { order := .big, suffixed := true }
      (List.mem_cons_of_mem _ List.mem_cons_self)
  exact ⟨(refuses _).mp muddled, fields, classified, planned⟩

end PackedRecord
