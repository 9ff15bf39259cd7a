import PackedRecord.Proofs.BoundLengths
import PackedRecord.Proofs.ReadableLines

/-!
# Source that is read back

The source of a record tells the procedures that it was rendered from.  The blank lines
separate the procedures, and the lines of a decode procedure tell its layout: the fields
that are read, their names by the line that builds the record, and the total.  An encode
procedure leaves out the names of the types of its fields; but it goes through the same
layout, so nothing more has to be read than under which name.
-/

namespace PackedRecord

open Text Source

/-! ## The lines of a procedure -/

namespace Layout

def Legible (layout : Layout) : Prop :=
  ∀ field ∈ layout.fields, field.Legible

section Body

variable {layout other : Layout} {naming otherNaming : Naming}
  {direction : Direction} {statement : Statement}

/-- A procedure demands sizes, touches the fields, and builds the record at the end. -/
private theorem cases_of_mem_body
    (member : statement ∈ (layout.procedure naming direction).body) :
    (∃ size, statement = .require size) ∨
      (∃ field ∈ layout.fields, statement = direction.touch field) ∨
        direction = .decode ∧
          statement = .construct (layout.fields.map PlacedField.name) := by
  have touched :
      ∀ field, statement = direction.touch field → field ∈ layout.fields := by
    intro field touches
    rw [← layout.filterMap_field?_body naming direction, List.mem_filterMap]
    exact ⟨statement, member, by rw [touches, direction.field?_touch]⟩
  rw [procedure, List.mem_cons, List.mem_append] at member
  rcases member with opens | inside | closes
  · exact Or.inl ⟨_, opens⟩
  · rcases direction.mem_touchAll _ _ inside with demands | ⟨field, touches⟩
    · exact Or.inl demands
    · exact Or.inr (Or.inl ⟨field, touched field touches, touches⟩)
  · cases direction with
    | decode => exact Or.inr (Or.inr ⟨rfl, List.mem_singleton.mp closes⟩)
    | encode => cases closes

theorem legible_of_mem_body
    (legible : layout.Legible)
    (member : statement ∈ (layout.procedure naming .decode).body) :
    statement.Legible := by
  rcases cases_of_mem_body member with
    ⟨size, rfl⟩ | ⟨field, inFields, rfl⟩ | ⟨_, rfl⟩
  · trivial
  · exact legible field inFields
  · exact List.forall_mem_map.mpr fun field inFields =>
      (legible field inFields).named

private theorem free_statementLine
    (legible : layout.Legible)
    (member : statement ∈ (layout.procedure naming direction).body) :
    Free '\n' (statementLine {} statement) := by
  rcases cases_of_mem_body member with
    ⟨size, rfl⟩ | ⟨field, inFields, rfl⟩ | ⟨_, rfl⟩
  · exact free_requireLine size
  · cases direction with
    | decode => exact free_readLine (legible field inFields)
    | encode => exact free_writeLine (legible field inFields)
  · exact free_constructLine
      (List.forall_mem_map.mpr fun field inFields =>
        (legible field inFields).named)

end Body

end Layout

namespace Source

private theorem free_returnLine (procedure : Procedure) :
    Free '\n' (returnLine procedure) := by
  unfold returnLine
  split
  · simp +decide [free_offset]
  · simp +decide [free_offset]

private theorem free_signatureLine
    {procedure : Procedure} (named : Free '\n' procedure.name) :
    Free '\n' (signatureLine {} procedure) := by
  unfold signatureLine
  split
  · simp +decide [named]
  · simp +decide [named]

private theorem mem_procedureLines
    {procedure : Procedure} {line : String}
    (member : line ∈ procedureLines {} procedure) :
    line = "    " ++ signatureLine {} procedure ∨
      (∃ statement ∈ procedure.body,
        line = "        " ++ statementLine {} statement) ∨
        line = "        " ++ returnLine procedure ∨ line = "    \x7d" := by
  simp only [procedureLines, List.mem_append, List.mem_map, List.mem_singleton]
    at member
  rcases member with (opens | ⟨inner, written | result, rfl⟩) | closes
  · exact Or.inl opens
  · obtain ⟨statement, inBody, rfl⟩ := written
    exact Or.inr (Or.inl ⟨statement, inBody, rfl⟩)
  · rw [result]
    exact Or.inr (Or.inr (Or.inl rfl))
  · exact Or.inr (Or.inr (Or.inr closes))

private theorem not_blank_of_mem_procedureLines
    {procedure : Procedure} {line : String}
    (member : line ∈ procedureLines {} procedure) :
    line ≠ "" := by
  have indented : ∀ {indent text : String}, indent ≠ "" → indent ++ text ≠ "" := by
    intro indent text present blank
    exact present (String.append_eq_empty_iff.mp blank).1
  rcases mem_procedureLines member with rfl | ⟨_, _, rfl⟩ | rfl | rfl
  · exact indented (by decide)
  · exact indented (by decide)
  · exact indented (by decide)
  · decide

private theorem free_of_mem_procedureLines
    {layout : Layout} (legible : layout.Legible) {naming : Naming}
    {direction : Direction} (named : Word (direction.baseName naming))
    {line : String}
    (member : line ∈ procedureLines {} (layout.procedure naming direction)) :
    Free '\n' line := by
  have called : Free '\n' (layout.procedure naming direction).name :=
    free_operationName layout.variant.operation named
  rcases mem_procedureLines member with rfl | ⟨_, inBody, rfl⟩ | rfl | rfl
  · rw [free_append_iff]
    exact ⟨by decide, free_signatureLine called⟩
  · rw [free_append_iff]
    exact ⟨by decide, Layout.free_statementLine legible inBody⟩
  · rw [free_append_iff]
    exact ⟨by decide, free_returnLine _⟩
  · decide

/-- Procedures that are rendered alike have the same name, and statements and results
that are rendered alike. -/
private theorem procedureLines_inj
    {first second : Procedure}
    (same : procedureLines {} first = procedureLines {} second) :
    first.direction = second.direction ∧
      first.name = second.name ∧
        first.body.map (statementLine {}) = second.body.map (statementLine {}) ∧
          returnLine first = returnLine second := by
  obtain ⟨front, _⟩ := List.append_inj' same rfl
  obtain ⟨opened, inner⟩ := List.cons.inj front
  obtain ⟨sameDirection, sameName⟩ :=
    @openingLine_inj {} first.direction second.direction first.name second.name
      opened
  have indented : Function.Injective (fun line : String => "        " ++ line) := by
    intro line other indentedAlike
    exact (String.append_right_inj _).mp indentedAlike
  obtain ⟨sameBody, sameResult⟩ :=
    List.append_inj' (List.map_injective_iff.mpr indented inner) rfl
  exact ⟨sameDirection, sameName, sameBody, (List.cons.inj sameResult).1⟩

end Source

/-! ## The layout that lines tell -/

namespace Statement

/-- The fields from which the statement builds the record. -/
def built? : Statement → Option (List String)
  | construct fields => some fields
  | _ => none

private theorem field?_told (statement : Statement) :
    statement.told.field? = statement.field?.map PlacedField.told := by
  cases statement <;> rfl

private theorem built?_told (statement : Statement) :
    statement.told.built? = statement.built? := by
  cases statement <;> rfl

end Statement

private theorem PlacedField.eq_of_map_told
    {fields others : List PlacedField}
    (sameNames : fields.map name = others.map name)
    (sameTold : fields.map told = others.map told) :
    fields = others := by
  induction fields generalizing others with
  | nil => exact (List.map_eq_nil_iff.mp sameTold.symm).symm
  | cons field rest inductionHypothesis =>
      cases others with
      | nil => cases sameTold
      | cons other remaining =>
          obtain ⟨sameName, namesBehind⟩ := List.cons.inj sameNames
          obtain ⟨sameField, toldBehind⟩ := List.cons.inj sameTold
          obtain ⟨_, sameAccess, sameOffset⟩ := PlacedField.mk.inj sameField
          have same : field = other := by
            cases field
            rw [PlacedField.mk.injEq]
            exact ⟨sameName, sameAccess, sameOffset⟩
          rw [same, inductionHypothesis namesBehind toldBehind]

namespace Layout

private theorem filterMap_built?_body (layout : Layout) (naming : Naming) :
    (layout.procedure naming .decode).body.filterMap Statement.built? =
      [layout.fields.map PlacedField.name] := by
  have touched :
      ∀ demanded,
        (Direction.decode.touchAll demanded layout.fields).filterMap
            Statement.built? =
          [] := by
    intro demanded
    apply List.filterMap_eq_nil_iff.mpr
    intro statement member
    rcases Direction.decode.mem_touchAll _ _ member with
      ⟨size, rfl⟩ | ⟨field, rfl⟩
    · rfl
    · rfl
  have demand :
      (Statement.require (.constant layout.staticSize)).built? = none :=
    rfl
  rw [procedure, List.filterMap_cons_none demand, List.filterMap_append,
    touched]
  rfl

variable {layout other : Layout} {naming otherNaming : Naming}

/-- The lines of a decode procedure tell the layout. -/
theorem layout_of_decode_lines
    (legible : layout.Legible) (otherLegible : other.Legible)
    (same :
      procedureLines {} (layout.procedure naming .decode) =
        procedureLines {} (other.procedure otherNaming .decode)) :
    layout.fields = other.fields ∧ layout.total = other.total := by
  obtain ⟨_, _, sameBody, sameResult⟩ := procedureLines_inj same
  have told :
      (layout.procedure naming .decode).body.map Statement.told =
        (other.procedure otherNaming .decode).body.map Statement.told :=
    map_eq_of_map_eq (fun _ _ => Statement.told_of_statementLine)
      (fun _ => legible_of_mem_body legible)
      (fun _ => legible_of_mem_body otherLegible) sameBody
  have sameNames :
      layout.fields.map PlacedField.name = other.fields.map PlacedField.name := by
    have built := congrArg (List.filterMap Statement.built?) told
    simp only [List.filterMap_map, Function.comp_def, Statement.built?_told,
      filterMap_built?_body] at built
    exact List.singleton_inj.mp built
  have sameTold :
      layout.fields.map PlacedField.told = other.fields.map PlacedField.told := by
    have touched := congrArg (List.filterMap Statement.field?) told
    simp only [List.filterMap_map, Function.comp_def, Statement.field?_told,
      ← List.map_filterMap, filterMap_field?_body] at touched
    exact touched
  have sameTotal : layout.total.sourceText = other.total.sourceText :=
    (String.append_right_inj _).mp ((String.append_left_inj "))").mp sameResult)
  exact ⟨PlacedField.eq_of_map_told sameNames sameTold,
    Offset.sourceText_inj sameTotal⟩

/-- A procedure is determined by its name, and by the fields and the total of its
layout. -/
theorem procedure_eq
    (sameFields : layout.fields = other.fields)
    (sameTotal : layout.total = other.total) {direction : Direction}
    (sameName :
      (layout.procedure naming direction).name =
        (other.procedure otherNaming direction).name) :
    layout.procedure naming direction = other.procedure otherNaming direction := by
  have sameSize : layout.staticSize = other.staticSize := by
    rw [staticSize, staticSize, sameTotal]
  rw [Procedure.mk.injEq]
  refine ⟨sameName, rfl, ?_, sameTotal⟩
  simp only [procedure, sameSize, sameFields]

end Layout

/-! ## The pairs of a record -/

namespace Source

/-- The lines of the procedures of some pairs, one block for each procedure. -/
def procedureBlocks (pairs : List CodecPair) : List (List String) :=
  pairs.flatMap fun pair =>
    [procedureLines {} pair.decode, procedureLines {} pair.encode]

/-- The lines of a record's pairs are those of its procedures between blank lines. -/
private theorem intercalate_pairLines (pairs : List CodecPair) :
    [""].intercalate (pairs.map (pairLines {})) =
      [""].intercalate (procedureBlocks pairs) := by
  induction pairs with
  | nil => rfl
  | cons pair rest inductionHypothesis =>
      cases rest with
      | nil => simp [procedureBlocks, pairLines]
      | cons second others =>
          simp only [List.map_cons, procedureBlocks, List.flatMap_cons,
            List.cons_append, List.nil_append] at inductionHypothesis ⊢
          conv_rhs => rw [List.intercalate_cons_cons, List.intercalate_cons_cons]
          rw [List.intercalate_cons_cons, inductionHypothesis, pairLines]
          simp only [List.append_assoc, List.cons_append, List.nil_append]

private theorem not_blank_of_mem_procedureBlocks
    {pairs : List CodecPair} :
    ∀ block ∈ procedureBlocks pairs, "" ∉ block := by
  intro block member blank
  obtain ⟨pair, _, inPair⟩ := List.mem_flatMap.mp member
  rcases List.mem_pair.mp inPair with rfl | rfl
  · exact not_blank_of_mem_procedureLines blank rfl
  · exact not_blank_of_mem_procedureLines blank rfl

private theorem procedureBlocks_inj
    {pairs others : List CodecPair} (nonempty : pairs ≠ [])
    (otherNonempty : others ≠ [])
    (same :
      [""].intercalate (pairs.map (pairLines {})) =
        [""].intercalate (others.map (pairLines {}))) :
    procedureBlocks pairs = procedureBlocks others := by
  have present : ∀ {some : List CodecPair}, some ≠ [] → procedureBlocks some ≠ [] := by
    intro pairs nonempty
    cases pairs with
    | nil => exact absurd rfl nonempty
    | cons pair rest => exact List.cons_ne_nil _ _
  rw [intercalate_pairLines, intercalate_pairLines] at same
  have split := congrArg (List.splitOn "") same
  rwa [List.splitOn_intercalate "" not_blank_of_mem_procedureBlocks
      (present nonempty),
    List.splitOn_intercalate "" not_blank_of_mem_procedureBlocks
      (present otherNonempty)] at split

end Source

/-- A pair whose source can be read: it was emitted from a layout, and its procedures
are named by words. -/
def CodecPair.Legible (pair : CodecPair) : Prop :=
  ∃ layout : Layout, ∃ naming : Naming,
    layout.Legible ∧
      (∀ direction : Direction, Word (direction.baseName naming)) ∧
        pair = layout.emit naming

namespace CodecPair

def procedures (pair : CodecPair) : Procedure × Procedure :=
  (pair.decode, pair.encode)

theorem Legible.free_of_mem_pairLines
    {pair : CodecPair} (legible : pair.Legible) {line : String}
    (member : line ∈ pairLines {} pair) :
    Free '\n' line := by
  obtain ⟨layout, naming, readable, named, rfl⟩ := legible
  by_cases blank : line = ""
  · rw [blank]
    decide
  · obtain ⟨direction, inside⟩ := exists_procedure_of_mem_pairLines blank member
    rw [Layout.procedure_emit] at inside
    exact free_of_mem_procedureLines readable (named direction) inside

/-- The lines of both procedures tell the procedures. -/
theorem Legible.procedures_eq
    {pair other : CodecPair} (legible : pair.Legible)
    (otherLegible : other.Legible)
    (sameDecode :
      procedureLines {} pair.decode = procedureLines {} other.decode)
    (sameEncode :
      procedureLines {} pair.encode = procedureLines {} other.encode) :
    pair.procedures = other.procedures := by
  obtain ⟨layout, naming, readable, _, rfl⟩ := legible
  obtain ⟨otherLayout, otherNaming, otherReadable, _, rfl⟩ := otherLegible
  obtain ⟨sameFields, sameTotal⟩ :=
    Layout.layout_of_decode_lines readable otherReadable sameDecode
  -- The lines of the encode procedure tell no types.  They are not needed for them:
  -- both procedures go through the layout that the decode lines told.
  obtain ⟨_, sameDecodeName, _⟩ := procedureLines_inj sameDecode
  obtain ⟨_, sameEncodeName, _⟩ := procedureLines_inj sameEncode
  exact congrArg₂ Prod.mk
    (Layout.procedure_eq sameFields sameTotal sameDecodeName)
    (Layout.procedure_eq sameFields sameTotal sameEncodeName)

theorem procedures_of_blocks
    {pairs others : List CodecPair} (legible : ∀ pair ∈ pairs, pair.Legible)
    (otherLegible : ∀ pair ∈ others, pair.Legible)
    (same : procedureBlocks pairs = procedureBlocks others) :
    pairs.map procedures = others.map procedures := by
  induction pairs generalizing others with
  | nil =>
      cases others with
      | nil => rfl
      | cons other remaining => cases same
  | cons pair rest inductionHypothesis =>
      cases others with
      | nil => cases same
      | cons other remaining =>
          simp only [procedureBlocks, List.flatMap_cons, List.cons_append,
            List.nil_append, List.cons.injEq] at same
          obtain ⟨sameDecode, sameEncode, sameRest⟩ := same
          have here :=
            (legible pair List.mem_cons_self).procedures_eq
              (otherLegible other List.mem_cons_self) sameDecode sameEncode
          have behind :=
            inductionHypothesis
              (fun later member => legible later (List.mem_cons_of_mem _ member))
              (fun later member =>
                otherLegible later (List.mem_cons_of_mem _ member))
              sameRest
          rw [List.map_cons, List.map_cons, here, behind]

end CodecPair

/-! ## Generated codecs -/

/-- The names that rendered source takes over as they are: that of the record, those of
declared types, and the base names of the operations. -/
structure Schema.Spelled (schema : Schema) (options : GenerateOptions) : Prop where
  record : Identifier schema.name
  types :
    ∀ field ∈ schema.fields, ∀ typeName,
      field.type = .named typeName → Identifier typeName
  decode : Identifier options.naming.decode
  encode : Identifier options.naming.encode

private theorem Schema.Spelled.word_baseName
    {schema : Schema} {options : GenerateOptions}
    (spelled : schema.Spelled options) (direction : Direction) :
    Word (direction.baseName options.naming) := by
  cases direction with
  | decode => exact spelled.decode.word
  | encode => exact spelled.encode.word

section Legible

variable {registry : Registry} {variants : List Variant} {variant : Variant}
  {record : String}

theorem Access.legible_of_means
    {type : TypeRef} {field : ClassifiedField}
    (spelled : ∀ typeName, type = .named typeName → Identifier typeName)
    (means : type.Means registry variants field.kind) {next : Nat}
    {access : Access}
    (accessed : Layout.access record variant next field = .ok access) :
    access.Legible := by
  obtain ⟨name, kind⟩ := field
  cases means with
  | byte stored =>
      cases accessed
      exact .byte _
  | integer stored wide =>
      cases accessed
      exact .integer _ ⟨_, stored⟩ wide
  | enum found stored =>
      cases accessed
      exact .enum _ (spelled _ rfl) ⟨_, stored⟩
  | composite found offered usable =>
      simp only [Layout.access] at accessed
      split at accessed <;> cases accessed
      exact .composite _ _ (spelled _ rfl)

theorem Layout.legible_of_placeFrom
    {declared : List Field} {fields : List ClassifiedField}
    (meant :
      List.Forall₂ (Field.ClassifiedAs registry variants) declared fields)
    (spelled :
      ∀ field ∈ declared,
        Identifier field.name ∧
          ∀ typeName, field.type = .named typeName → Identifier typeName)
    {start stop : Offset} {placed : List PlacedField}
    (done : placeFrom (· + ·) record variant start fields = .ok (placed, stop)) :
    ∀ field ∈ placed, field.Legible := by
  induction meant generalizing start placed with
  | nil =>
      cases done
      intro field member
      cases member
  | @cons field made declared fields first _ inductionHypothesis =>
      obtain ⟨access, others, accessed, behind, rfl⟩ :=
        placeFrom_cons_eq_ok.mp done
      obtain ⟨sameName, means⟩ := first
      obtain ⟨named, typesNamed⟩ := spelled field List.mem_cons_self
      have legible := Access.legible_of_means typesNamed means accessed
      rw [← sameName] at named
      rw [List.forall_mem_cons]
      refine ⟨⟨named, legible⟩, ?_⟩
      exact inductionHypothesis
        (fun later member => spelled later (List.mem_cons_of_mem _ member))
        behind

end Legible

theorem Schema.Spelled.legible
    {schema : Schema} {registry : Registry} {options : GenerateOptions}
    (spelled : schema.Spelled options) {generated : Generated}
    (done : schema.generate registry options = .ok generated) :
    generated.record = schema.name ∧
      generated.codecs ≠ [] ∧ ∀ pair ∈ generated.codecs, pair.Legible := by
  obtain ⟨variants, fields, valid, sameRecord, emitted⟩ :=
    generate_eq_ok_iff.mp done
  refine ⟨sameRecord, ?_, ?_⟩
  · have directed := valid.directed
    intro none
    rw [none] at emitted
    cases emitted
    unfold Schema.variants at directed
    split at directed <;> cases directed
  · intro pair member
    obtain ⟨variant, _, layout, planned, same⟩ :=
      exists_source_of_forall₂ emitted member
    refine ⟨layout, options.naming, ?_, spelled.word_baseName, same⟩
    simp only [Layout.plan, Layout.layOut, bind_eq_ok, pure_eq_ok, Prod.exists] at planned
    obtain ⟨placed, total, done, rfl⟩ := planned
    apply Layout.legible_of_placeFrom valid.meant _ done
    intro field inFields
    exact ⟨(valid.named.1 field inFields).1, spelled.types field inFields⟩

namespace Source

private theorem free_of_mem_generatedLines
    {generated : Generated} (named : Word generated.record)
    (legible : ∀ pair ∈ generated.codecs, pair.Legible) {line : String}
    (member : line ∈ generatedLines {} generated) :
    Free '\n' line := by
  by_cases blank : line = ""
  · rw [blank]
    decide
  · rcases List.mem_append.mp member with front | closing
    · rcases List.mem_cons.mp front with opening | inner
      · rw [opening]
        simp +decide [free_of_word named]
      · obtain ⟨_, blockMember, inBlock⟩ := (mem_intercalate_blank blank).mp inner
        obtain ⟨pair, offered, rfl⟩ := List.mem_map.mp blockMember
        exact (legible pair offered).free_of_mem_pairLines inBlock
    · rw [List.mem_singleton.mp closing]
      decide

/-- The source of a record tells what was rendered: its name, and for every pair both
procedures. -/
theorem render_tells_procedures
    {schema other : Schema} {registry otherRegistry : Registry}
    {options otherOptions : GenerateOptions} (spelled : schema.Spelled options)
    (otherSpelled : other.Spelled otherOptions)
    {generated otherGenerated : Generated}
    (done : schema.generate registry options = .ok generated)
    (otherDone :
      other.generate otherRegistry otherOptions = .ok otherGenerated)
    (same : render {} generated = render {} otherGenerated) :
    generated.record = otherGenerated.record ∧
      generated.codecs.length = otherGenerated.codecs.length ∧
        generated.codecs.map CodecPair.procedures =
          otherGenerated.codecs.map CodecPair.procedures := by
  obtain ⟨record, nonempty, legible⟩ := spelled.legible done
  obtain ⟨otherRecord, otherNonempty, otherLegible⟩ :=
    otherSpelled.legible otherDone
  have named : Word generated.record := by
    rw [record]
    exact spelled.record.word
  have otherNamed : Word otherGenerated.record := by
    rw [otherRecord]
    exact otherSpelled.record.word
  have sameLines : generatedLines {} generated = generatedLines {} otherGenerated :=
    textOfLines_inj (fun _ => free_of_mem_generatedLines named legible)
      (fun _ => free_of_mem_generatedLines otherNamed otherLegible) same
  obtain ⟨front, _⟩ := List.append_inj' sameLines rfl
  obtain ⟨opening, inner⟩ := List.cons.inj front
  have sameRecord : generated.record = otherGenerated.record :=
    (String.append_right_inj _).mp ((String.append_left_inj " \x7b").mp opening)
  have sameProcedures :=
    CodecPair.procedures_of_blocks legible otherLegible
      (procedureBlocks_inj nonempty otherNonempty inner)
  refine ⟨sameRecord, ?_, sameProcedures⟩
  have counts := congrArg List.length sameProcedures
  rwa [List.length_map, List.length_map] at counts

end Source

namespace Drawing

/-- A record to which no byte order applies: what has one is nested, and applies its
own. -/
def dot (directives : Directives) : Schema :=
  (Schema.builder "Dot").withFields
      [("buffer", .primitive .u8), ("centre", .named "Point")]
    |>.withDirectives directives

/-- Points that decode themselves in an order of their own. -/
def ownPoints : Registry :=
  Registry.empty.declare (.contractOnly "Point" { generic := true })

private theorem spelled_dot (directives : Directives) : (dot directives).Spelled {} := by
  refine
    { record := isIdentifier_iff.mp (by decide : isIdentifier "Dot" = true)
      types := ?_
      decode := isIdentifier_iff.mp (by decide)
      encode := isIdentifier_iff.mp (by decide) }
  intro field member typeName type
  rcases List.mem_pair.mp member with rfl | rfl
  · cases type
  · cases type
    exact isIdentifier_iff.mp (by decide)

end Drawing

/-- With either directive the source of a dot is the same, and so are the procedures; the
variants are not. -/
theorem Source.render_tells_procedures_of_dot :
    ∃ little big,
      (Drawing.dot { littleEndian := true }).generate Drawing.ownPoints {} =
          .ok little ∧
        (Drawing.dot { bigEndian := true }).generate Drawing.ownPoints {} =
            .ok big ∧
          little.codecs.map CodecPair.variant ≠
              big.codecs.map CodecPair.variant ∧
            little.codecs.map CodecPair.procedures =
              big.codecs.map CodecPair.procedures := by
  obtain ⟨little, big, done, otherDone, same, apart⟩ :
      ∃ little big,
        (Drawing.dot { littleEndian := true }).generate Drawing.ownPoints {} =
            .ok little ∧
          (Drawing.dot { bigEndian := true }).generate Drawing.ownPoints {} =
              .ok big ∧
            render {} little = render {} big ∧
              little.codecs.map CodecPair.variant ≠
                big.codecs.map CodecPair.variant :=
    ⟨_, _, rfl, rfl, rfl, by decide⟩
  obtain ⟨_, _, sameProcedures⟩ :=
    render_tells_procedures (Drawing.spelled_dot _) (Drawing.spelled_dot _) done
      otherDone same
  exact ⟨little, big, done, otherDone, apart, sameProcedures⟩

end PackedRecord
