import PackedRecord.Proofs.BoundLengths
import PackedRecord.Proofs.LinePieces

/-!
# Names in rendered source

A rendered decode procedure binds names of two origins: locals, which come from the names
of the fields, and its own names for the buffer, the reported lengths and the record.
Different fields may have names that are rendered alike, or that the procedure uses
itself.  This module shows that nothing is captured: wherever the source of a schema that
was accepted uses a name, it stands for what the procedure means by it.

What a name stands for is what it was bound to last.  Before the record is built no name
is bound twice, so every name stands for what it was bound to at all, and the order of the
statements ensures that it was.
-/

namespace PackedRecord

open Text Source

namespace Source

/-! ## What names stand for -/

/-- What the name was bound to last is what is meant by it. -/
def StandsFor (scope : List Variable) (meant : Variable) : Prop :=
  ∃ earlier later,
    scope = earlier ++ meant :: later ∧ ∀ other ∈ later, other.name ≠ meant.name

/-- Each line uses names only for what they stand for by the lines before it. -/
def Scoped : List Variable → List (List Piece) → Prop
  | _, [] => True
  | scope, line :: rest =>
      (∀ meant ∈ uses line, StandsFor scope meant) ∧
        Scoped (scope ++ bindings line) rest

/-- Where no name is bound twice, each stands for what it was bound to. -/
private theorem standsFor_of_mem
    {scope : List Variable} (distinct : (scope.map Variable.name).Nodup)
    {meant : Variable} (member : meant ∈ scope) :
    StandsFor scope meant := by
  obtain ⟨earlier, later, rfl⟩ := List.append_of_mem member
  refine ⟨earlier, later, rfl, ?_⟩
  intro other inLater same
  rw [List.map_append, List.map_cons, List.nodup_append] at distinct
  have alone := (List.nodup_cons.mp distinct.2.1).1
  rw [← same] at alone
  exact alone (List.mem_map_of_mem inLater)

theorem StandsFor.append
    {scope more : List Variable} {meant : Variable}
    (stands : StandsFor scope meant)
    (others : ∀ other ∈ more, other.name ≠ meant.name) :
    StandsFor (scope ++ more) meant := by
  obtain ⟨earlier, later, rfl, apart⟩ := stands
  refine ⟨earlier, later ++ more, by rw [List.append_assoc, List.cons_append], ?_⟩
  rw [List.forall_mem_append]
  exact ⟨apart, others⟩

theorem scoped_append_iff {scope : List Variable} {front back : List (List Piece)} :
    Scoped scope (front ++ back) ↔
      Scoped scope front ∧ Scoped (scope ++ front.flatMap bindings) back := by
  induction front generalizing scope with
  | nil => simp [Scoped]
  | cons line rest inductionHypothesis =>
      rw [List.cons_append, Scoped, Scoped, inductionHypothesis, and_assoc,
        List.flatMap_cons, List.append_assoc]

theorem scoped_singleton_iff {scope : List Variable} {line : List Piece} :
    Scoped scope [line] ↔ ∀ meant ∈ uses line, StandsFor scope meant :=
  iff_of_eq (and_true _)

theorem scoped_indented_iff
    (indent : String) {scope : List Variable} {lines : List (List Piece)} :
    Scoped scope (lines.map (.literal indent :: ·)) ↔ Scoped scope lines := by
  induction lines generalizing scope with
  | nil => rfl
  | cons line rest inductionHypothesis =>
      exact and_congr_right fun _ => inductionHypothesis

/-- Statements that demand sizes or decode fields use names only for what they stand
for. -/
theorem scoped_of_inOrder
    (options : RenderOptions) {size : Nat} {before : List LengthVar}
    {statements : List Statement}
    (inOrder : Statement.InOrder size before statements)
    (decoding :
      ∀ statement ∈ statements,
        (∃ size, statement = .require size) ∨ ∃ field, statement = .read field)
    {scope : List Variable} (parameter : .buffer ∈ scope)
    (reported : ∀ length ∈ before, .length length ∈ scope)
    (distinct :
      ((scope ++ statements.flatMap Statement.bindings).map
        Variable.name).Nodup) :
    Scoped scope (statements.map (statementPieces options)) := by
  induction statements generalizing before scope with
  | nil => trivial
  | cons statement rest inductionHypothesis =>
      obtain ⟨inPlace, behind⟩ := inOrder
      obtain ⟨here, others⟩ := List.forall_mem_cons.mp decoding
      rw [List.flatMap_cons, ← List.append_assoc] at distinct
      have scopeDistinct : (scope.map Variable.name).Nodup := by
        rw [List.append_assoc, List.map_append] at distinct
        exact (List.nodup_append.mp distinct).1
      refine ⟨?_, ?_⟩
      · rw [uses_statementPieces]
        intro meant member
        apply standsFor_of_mem scopeDistinct
        have known : ∀ offset, statement.offset? = some offset →
            ∀ meant ∈ .buffer :: offset.lengths.map Variable.length,
              meant ∈ scope := by
          intro offset mentioned
          rw [List.forall_mem_cons, List.forall_mem_map]
          exact ⟨parameter, fun length inside =>
            reported length (inPlace.mentions offset mentioned inside)⟩
        rcases here with ⟨size, rfl⟩ | ⟨field, rfl⟩
        · exact known size rfl meant member
        · exact known field.offset rfl meant member
      · rw [bindings_statementPieces]
        refine
          inductionHypothesis behind others (List.mem_append_left _ parameter) ?_
            distinct
        rw [List.forall_mem_append]
        refine
          ⟨fun length earlier => List.mem_append_left _ (reported length earlier), ?_⟩
        intro length bound
        rcases here with ⟨size, rfl⟩ | ⟨field, rfl⟩
        · cases bound
        · apply List.mem_append_right
          exact List.mem_cons_of_mem _ (List.mem_map_of_mem bound)

/-! ## Names that are told apart -/

theorem isLengthName_iff {name : String} :
    isLengthName name = true ↔
      ∃ number,
        name.toList = "len_".toList ++ number ∧
          number ≠ [] ∧ ∀ character ∈ number, character.isDigit = true := by
  have digits : ∀ number : List Char,
      (digits? number).isSome = true ↔
        number ≠ [] ∧ ∀ character ∈ number, character.isDigit = true := by
    intro number
    unfold digits?
    split <;> simp_all
  unfold isLengthName
  split
  · next number spelled =>
      rw [digits]
      constructor
      · intro numeral
        exact ⟨number, spelled, numeral⟩
      · rintro ⟨other, same, numeral⟩
        rw [spelled] at same
        cases same
        exact numeral
  · next other =>
      constructor
      · intro absurdly
        cases absurdly
      · rintro ⟨number, spelled, _⟩
        exact (other number spelled).elim

/-- No local is a name that the procedure uses itself. -/
private theorem not_reserved_localName (name : String) :
    localName name ≠ "buffer" ∧ localName name ≠ "rest" ∧
      isLengthName (localName name) = false := by
  have ends : ∀ text : String, (text ++ "_").toList.getLast? = some '_' := by
    intro text
    rw [String.toList_append]
    exact List.getLast?_concat
  have raw :
      ∀ keyword ∈ keywords,
        "r#" ++ keyword ≠ "buffer" ∧ "r#" ++ keyword ≠ "rest" ∧
          isLengthName ("r#" ++ keyword) = false := by
    decide
  unfold localName
  split
  · have last := ends name
    refine ⟨?_, ?_, ?_⟩
    · intro buffer
      rw [buffer] at last
      revert last
      decide
    · intro rest
      rw [rest] at last
      revert last
      decide
    · rw [Bool.eq_false_iff]
      intro length
      obtain ⟨number, spelled, nonempty, digits⟩ := isLengthName_iff.mp length
      rw [spelled, List.getLast?_append_of_ne_nil _ nonempty] at last
      have underscore := digits '_' (List.mem_of_getLast? last)
      revert underscore
      decide
  · next free =>
      unfold memberName
      split
      · next keyword => exact raw name (List.contains_iff_mem.mp keyword)
      · simpa [not_or] using free

private theorem localName_ne_length (name : String) (number : Nat) :
    localName name ≠ "len_" ++ decimal number := by
  intro same
  obtain ⟨_, _, noLength⟩ := not_reserved_localName name
  rw [same, Bool.eq_false_iff] at noLength
  apply noLength
  rw [isLengthName_iff]
  refine ⟨Nat.toDigits 10 number, ?_, Nat.toDigits_ne_nil, ?_⟩
  · rw [String.toList_append, toList_decimal]
  · intro character member
    exact Nat.isDigit_of_mem_toDigits (by decide) (by decide) member

private theorem lengthName_ne_of_head?
    {length : LengthVar} {text : String} (apart : text.toList.head? ≠ some 'l') :
    length.name ≠ text := by
  rintro rfl
  exact apart
    (head?_append_text (by decide : "len_".toList.head? = some 'l') _)

/-- What a rendered decode procedure does with names, when the record has the given
fields. -/
structure NamesKept (options : RenderOptions) (fields : List String)
    (procedure : Procedure) : Prop where
  /-- The pieces make up the source, and the fixed texts hold no name. -/
  spelled :
    (decodePieces options procedure).map lineText = procedureLines options procedure
  plain : ∀ line ∈ decodePieces options procedure, PlainLine line
  /-- The fields are bound in order, and nothing is bound twice. -/
  decoded :
    ((decodePieces options procedure).flatMap bindings).filter
        Variable.isField =
      fields.map .field
  once : ((decodePieces options procedure).flatMap bindings).Nodup
  /-- Names are used only for what they stand for. -/
  resolved : Scoped [] (decodePieces options procedure)
  /-- Every member is initialised, from the local of its own field. -/
  built :
    (decodePieces options procedure).flatMap initialisers =
      fields.map fun field => (memberName field, .field field)

end Source

/-! ## Decode procedures -/

/-- The fields and the lengths that they report, each kind by itself. -/
private theorem PlacedField.perm_flatMap_bindings (fields : List PlacedField) :
    (fields.flatMap bindings).Perm
      ((fields.map fun field => Variable.field field.name) ++
        (lengths fields).map .length) := by
  induction fields with
  | nil => exact .refl []
  | cons field rest inductionHypothesis =>
      rw [List.flatMap_cons, lengths_cons, List.map_cons, List.map_append, bindings]
      refine .cons _ ?_
      have behind :=
        inductionHypothesis.append_left
          (field.access.length?.toList.map Variable.length)
      exact behind.trans (List.perm_append_comm_assoc _ _ _)

private theorem Direction.flatMap_bindings_touchAll
    (demanded : Offset) (fields : List PlacedField) :
    (Direction.decode.touchAll demanded fields).flatMap Statement.bindings =
      fields.flatMap PlacedField.bindings := by
  induction fields generalizing demanded with
  | nil => rfl
  | cons field rest inductionHypothesis =>
      unfold touchAll
      cases field.access.length? with
      | none =>
          simp only [List.flatMap_cons, inductionHypothesis]
          rfl
      | some length =>
          simp only [List.flatMap_cons, inductionHypothesis]
          rfl

namespace Layout

/-- What a decode procedure has bound when it comes to build the record. -/
def scope (layout : Layout) : List Variable :=
  .buffer :: layout.fields.flatMap PlacedField.bindings

variable {layout : Layout} (options : RenderOptions) (naming : Naming)

private theorem perm_scope (layout : Layout) :
    layout.scope.Perm
      (.buffer ::
        ((layout.fields.map fun field => .field field.name) ++
          (PlacedField.lengths layout.fields).map .length)) :=
  (PlacedField.perm_flatMap_bindings layout.fields).cons _

/-- What a decode procedure binds, in order. -/
private theorem flatMap_bindings_decodePieces (layout : Layout) :
    (decodePieces options (layout.procedure naming .decode)).flatMap bindings =
      layout.scope ++ [.record] := by
  have returned : ∀ total, bindings (returnPieces total) = [] := by
    intro total
    rw [← bindings_names, names_returnPieces, bindings]
    simp [Piece.binding?]
  rw [flatMap_decodePieces options _ rfl fun _ _ => rfl, returned]
  simp only [bindings_statementPieces, procedure, List.flatMap_cons,
    List.flatMap_append, Direction.flatMap_bindings_touchAll]
  simp [scope, Direction.closing, Statement.bindings, signaturePieces, bindings,
    List.filterMap_cons, Piece.binding?]

private theorem flatMap_initialisers_decodePieces (layout : Layout) :
    (decodePieces options (layout.procedure naming .decode)).flatMap initialisers =
      (layout.fields.map PlacedField.name).map fun name =>
        (memberName name, .field name) := by
  have returned : ∀ total, initialisers (returnPieces total) = [] := by
    intro total
    rw [← initialisers_names, names_returnPieces, initialisers]
    simp [Piece.initialiser?]
  have touching : ∀ demanded,
      (Direction.decode.touchAll demanded layout.fields).flatMap
          Statement.initialisers =
        [] := by
    intro demanded
    rw [List.flatMap_eq_nil_iff]
    intro statement member
    rcases Direction.decode.mem_touchAll _ _ member with ⟨_, rfl⟩ | ⟨_, rfl⟩
    · rfl
    · rfl
  rw [flatMap_decodePieces options _ rfl fun _ _ => rfl, returned]
  simp only [initialisers_statementPieces, procedure, List.flatMap_cons,
    List.flatMap_append, touching]
  simp [Direction.closing, Statement.initialisers, signaturePieces, initialisers,
    List.filterMap_cons, Piece.initialiser?]

/-- The fields that a decode procedure binds are those of the layout, in order. -/
private theorem filter_isField_scope (layout : Layout) :
    (layout.scope ++ [Variable.record]).filter Variable.isField =
      (layout.fields.map PlacedField.name).map .field := by
  have each : ∀ field : PlacedField,
      field.bindings.filter Variable.isField = [.field field.name] := by
    intro field
    rw [PlacedField.bindings]
    cases field.access.length? <;> rfl
  rw [scope, List.filter_append, List.filter_cons_of_neg Bool.false_ne_true,
    List.filter_flatMap, List.flatMap_congr fun field _ => each field,
    ← List.map_eq_flatMap, List.map_map]
  exact List.append_nil _

/-- Up to the record no name is bound twice. -/
private theorem nodup_names_scope
    (locals : (layout.fields.map fun field => localName field.name).Nodup)
    (lengths : (PlacedField.lengths layout.fields).Nodup) :
    (layout.scope.map Variable.name).Nodup := by
  have lengthNames :
      ((PlacedField.lengths layout.fields).map LengthVar.name).Nodup :=
    lengths.map fun _ _ => Offset.lengthName_inj
  rw [(layout.perm_scope.map Variable.name).nodup_iff, List.map_cons,
    List.map_append, List.map_map, List.map_map, List.nodup_cons,
    List.mem_append, not_or, List.nodup_append]
  refine ⟨⟨?_, ?_⟩, locals, lengthNames, ?_⟩
  · rw [List.mem_map]
    rintro ⟨field, _, same⟩
    exact (not_reserved_localName field.name).1 same
  · rw [List.mem_map]
    rintro ⟨length, _, same⟩
    exact lengthName_ne_of_head? (by decide) same
  · intro target isLocal name isLength
    obtain ⟨field, _, rfl⟩ := List.mem_map.mp isLocal
    obtain ⟨length, _, rfl⟩ := List.mem_map.mp isLength
    exact localName_ne_length field.name length.number

section Distinct

variable (chain : Chain (· + ·) {} layout.fields layout.total)
  (distinct : (layout.scope.map Variable.name).Nodup)
include distinct

/-- A field may be called as the record is, but is not the record. -/
private theorem nodup_bindings : (layout.scope ++ [Variable.record]).Nodup := by
  rw [← List.concat_eq_append, List.nodup_concat, layout.perm_scope.mem_iff]
  exact ⟨by simp, distinct.of_map Variable.name⟩

include chain in
theorem scoped_touching :
    Scoped [.buffer]
      ((.require (.constant layout.staticSize) ::
          Direction.decode.touchAll (.constant layout.staticSize)
            layout.fields).map (statementPieces options)) := by
  have closes : ∀ before, Statement.InOrder layout.staticSize before [] :=
    fun _ => trivial
  have base : (Offset.constant layout.staticSize).base = layout.staticSize :=
    rfl
  have behind := chain.inOrder .decode base rfl closes
  rw [List.append_nil] at behind
  refine
    scoped_of_inOrder options (.cons_of_unbound ?_ rfl behind) ?_
      List.mem_cons_self (List.forall_mem_nil _) ?_
  · intro offset demanded
    cases demanded
    exact List.Subset.refl _
  · rw [List.forall_mem_cons]
    exact ⟨Or.inl ⟨_, rfl⟩, fun _ => Direction.decode.mem_touchAll _ _⟩
  · rw [List.flatMap_cons, Direction.flatMap_bindings_touchAll]
    exact distinct

theorem scoped_construct :
    Scoped layout.scope
      [statementPieces options
        (.construct (layout.fields.map PlacedField.name))] := by
  rw [scoped_singleton_iff, uses_statementPieces, Statement.uses,
    List.forall_mem_map, List.forall_mem_map]
  intro field member
  apply standsFor_of_mem distinct
  rw [layout.perm_scope.mem_iff]
  exact List.mem_cons_of_mem _
    (List.mem_append_left _ (List.mem_map_of_mem member))

include chain in
theorem scoped_returnPieces :
    Scoped (layout.scope ++ [.record]) [returnPieces layout.total] := by
  have total := chain.lengths_stop
  rw [List.nil_append] at total
  rw [scoped_singleton_iff, uses_returnPieces, List.forall_mem_cons,
    List.forall_mem_map, total]
  refine ⟨⟨layout.scope, [], rfl, List.forall_mem_nil _⟩, ?_⟩
  intro length member
  have bound : .length length ∈ layout.scope := by
    rw [layout.perm_scope.mem_iff]
    exact List.mem_cons_of_mem _
      (List.mem_append_right _ (List.mem_map_of_mem member))
  apply (standsFor_of_mem distinct bound).append
  rw [List.forall_mem_singleton]
  exact (lengthName_ne_of_head? (by decide)).symm

include chain in
/-- Every name is used for what it stands for. -/
theorem scoped_decodePieces :
    Scoped [] (decodePieces options (layout.procedure naming .decode)) := by
  have bound :
      [Variable.buffer] ++
          ((.require (.constant layout.staticSize) ::
              Direction.decode.touchAll (.constant layout.staticSize)
                layout.fields).map (statementPieces options)).flatMap bindings =
        layout.scope := by
    simp only [List.flatMap_map, bindings_statementPieces, List.flatMap_cons,
      Direction.flatMap_bindings_touchAll]
    rfl
  have built :
      [statementPieces options
          (.construct (layout.fields.map PlacedField.name))].flatMap bindings =
        [.record] := by
    rw [List.flatMap_singleton, bindings_statementPieces]
    rfl
  have body :
      Scoped [.buffer]
        ((layout.procedure naming .decode).body.map (statementPieces options) ++
          [returnPieces (layout.procedure naming .decode).returns]) := by
    rw [procedure, ← List.cons_append, List.map_append, scoped_append_iff,
      scoped_append_iff, List.flatMap_append, ← List.append_assoc, bound]
    refine ⟨⟨scoped_touching options chain distinct, ?_⟩, ?_⟩
    · exact scoped_construct options distinct
    · rw [Direction.closing, List.map_singleton, built]
      exact scoped_returnPieces chain distinct
  rw [decodePieces, scoped_append_iff, scoped_singleton_iff]
  refine ⟨⟨List.forall_mem_nil _, ?_⟩, List.forall_mem_nil _⟩
  rw [scoped_indented_iff]
  exact body

include chain in
theorem namesKept :
    NamesKept options (layout.fields.map PlacedField.name)
      (layout.procedure naming .decode) := by
  have bound := flatMap_bindings_decodePieces options naming layout
  refine
    { spelled := map_lineText_decodePieces options rfl
      plain := plainLine_of_mem_decodePieces options _
      decoded := ?_
      once := ?_
      resolved := scoped_decodePieces options naming chain distinct
      built := flatMap_initialisers_decodePieces options naming layout }
  · rw [bound, filter_isField_scope]
  · rw [bound]
    exact nodup_bindings distinct

end Distinct

end Layout

/-! ## Accepted schemas -/

/-- Different fields are different members. -/
private theorem Field.WellNamed.nodup_memberNames
    {fields : List Field} (named : Field.WellNamed fields) :
    (fields.map fun field => memberName field.name).Nodup := by
  obtain ⟨usable, locals⟩ := named
  have names : (fields.map Field.name).Nodup := by
    refine List.Nodup.of_map Source.localName ?_
    rw [List.map_map]
    exact locals
  have members : ((fields.map Field.name).map memberName).Nodup := by
    refine names.map_on ?_
    rw [List.forall_mem_map]
    intro field member
    rw [List.forall_mem_map]
    intro other otherMember
    exact memberName_inj (usable field member).1 (usable other otherMember).1
  rw [List.map_map] at members
  exact members

namespace Schema

variable {schema : Schema} {registry : Registry} {options : GenerateOptions}
  {generated : Generated}

/-- A layout of classified fields has the names of the schema's fields. -/
private theorem map_name_eq_of_plan
    {variants : List Variant} {fields : List ClassifiedField} {layout : Layout}
    (meant : schema.Meant registry variants fields) (arranges : layout.Arranges fields) :
    layout.fields.map PlacedField.name = schema.fields.map Field.name := by
  have classified :
      fields.map ClassifiedField.name = schema.fields.map Field.name := by
    rw [← List.forall₂_eq_eq_eq, List.forall₂_map_left_iff,
      List.forall₂_map_right_iff]
    exact meant.flip.imp fun _ _ one => one.1
  rw [← classified, ← List.forall₂_eq_eq_eq, List.forall₂_map_left_iff,
    List.forall₂_map_right_iff]
  exact arranges.placed.flip.imp fun _ _ one => one.1

/-- In the source of an accepted schema the locals of the fields are told apart from one
another and from the names that the procedures use themselves, whatever the lengths.  So
each decode procedure uses every name for what it stands for, and builds the record from
the local of each field. -/
theorem decoded_names_resolve
    (done : schema.generate registry options = .ok generated) :
    ((schema.fields.map Field.localName).Nodup ∧
        (schema.fields.map fun field => memberName field.name).Nodup) ∧
      (∀ field ∈ schema.fields,
          field.localName ≠ "buffer" ∧ field.localName ≠ "rest" ∧
            ∀ number, field.localName ≠ "len_" ++ decimal number) ∧
        (∀ length : LengthVar,
            length.name ∉ schema.fields.map Field.localName) ∧
          ∀ pair ∈ generated.codecs, ∀ rendering : RenderOptions,
            NamesKept rendering (schema.fields.map Field.name) pair.decode := by
  obtain ⟨variants, fields, valid, _, emitted⟩ := generate_eq_ok_iff.mp done
  have locals := valid.named.2
  refine ⟨⟨locals, valid.named.nodup_memberNames⟩, ?_, ?_, ?_⟩
  · intro field _
    obtain ⟨buffer, rest, _⟩ := not_reserved_localName field.name
    exact ⟨buffer, rest, localName_ne_length field.name⟩
  · intro length member
    obtain ⟨field, _, same⟩ := List.mem_map.mp member
    exact localName_ne_length field.name length.number same
  · intro pair member rendering
    obtain ⟨variant, _, layout, planned, rfl⟩ :=
      exists_source_of_forall₂ emitted member
    have arranges := Layout.arranges_of_plan planned
    have names := map_name_eq_of_plan valid.meant arranges
    have placed :
        (layout.fields.map fun field => Source.localName field.name).Nodup := by
      have mapped := congrArg (List.map Source.localName) names
      rw [List.map_map, List.map_map] at mapped
      exact mapped ▸ locals
    rw [← names]
    exact
      Layout.namesKept rendering options.naming (Layout.chain_of_plan planned)
        (Layout.nodup_names_scope placed arranges.nodup_lengths)

end Schema

namespace Drawing

/-- A record whose fields have the names that a decode procedure uses itself, and a
keyword. -/
def awkward : Schema :=
  (Schema.builder "Awkward").withFields
      [("len_1", .primitive .u8), ("rest", .named "Point"),
        ("type", .primitive .u16), ("buffer", .primitive .u8),
        ("result", .primitive .u8)]
    |>.withDirectives { bigEndian := true }

end Drawing

/-- The locals of the record are apart from those names, and the composite's length is
not the field that is called so. -/
theorem Schema.decoded_names_resolve_for_awkward :
    ∃ pair,
      Drawing.awkward.generate Drawing.points.registry {} =
          .ok { record := "Awkward", codecs := [pair] } ∧
        (∀ rendering,
            NamesKept rendering ["len_1", "rest", "type", "buffer", "result"]
              pair.decode) ∧
          ("        let (rest_, len_1) = ::binlayout::wire::decode_nested(buffer, 1, " ++
              "Point::decode_big_endian)?;") ∈ procedureLines {} pair.decode ∧
            ("        let result = Self \x7b len_1: len_1_, rest: rest_, r#type, " ++
              "buffer: buffer_, result \x7d;") ∈ procedureLines {} pair.decode := by
  obtain ⟨pair, done, binds, builds⟩ :
      ∃ pair,
        Drawing.awkward.generate Drawing.points.registry {} =
            .ok { record := "Awkward", codecs := [pair] } ∧
          ("        let (rest_, len_1) = ::binlayout::wire::decode_nested(buffer, 1, " ++
              "Point::decode_big_endian)?;") ∈ procedureLines {} pair.decode ∧
            ("        let result = Self \x7b len_1: len_1_, rest: rest_, r#type, " ++
              "buffer: buffer_, result \x7d;") ∈ procedureLines {} pair.decode :=
    ⟨_, rfl, by decide, by decide⟩
  obtain ⟨_, _, _, kept⟩ := decoded_names_resolve done
  exact ⟨pair, done, kept pair List.mem_cons_self, binds, builds⟩

end PackedRecord
