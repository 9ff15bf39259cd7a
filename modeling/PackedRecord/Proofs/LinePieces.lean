import PackedRecord.Proofs.ReadableText

/-!
# Lines in pieces

A line of a rendered decode procedure is made of fixed texts, of what is put into them,
and of names: for the buffer, for decoded fields, for reported lengths and for the record.
This module takes the lines apart, so that one can say which names a line binds, which it
uses, and what it means by them.  The pieces make up the source again, and no name is
hidden in a fixed text.
-/

namespace PackedRecord

open Text Source

namespace Source

/-! ## Pieces -/

/-- What a name in a decode procedure may stand for. -/
inductive Variable
  | buffer
  /-- The decoded value of the field. -/
  | field (name : String)
  /-- What a composite has reported. -/
  | length (length : LengthVar)
  /-- The record that was built. -/
  | record
  deriving DecidableEq

def Variable.isField : Variable → Bool
  | field _ => true
  | _ => false

def Variable.name : Variable → String
  | buffer => "buffer"
  | field name => localName name
  | length reported => reported.name
  | record => "result"

inductive Piece
  /-- A fixed text. -/
  | literal (content : String)
  /-- A path, the name of a type or of a function, or a number. -/
  | inserted (content : String)
  | bound (meant : Variable)
  | used (meant : Variable)
  /-- The member of a record, initialised by the use of a name.  Where both are the same
  the name is not repeated. -/
  | initialised (member : String) (meant : Variable)

namespace Piece

def text : Piece → String
  | literal content => content
  | inserted content => content
  | bound meant => meant.name
  | used meant => meant.name
  | initialised member meant =>
      if member = meant.name then
        member
      else
        member ++ ": " ++ meant.name

def isName : Piece → Bool
  | literal _ => false
  | inserted _ => false
  | bound _ => true
  | used _ => true
  | initialised _ _ => true

def binding? : Piece → Option Variable
  | literal _ => none
  | inserted _ => none
  | bound meant => some meant
  | used _ => none
  | initialised _ _ => none

/-- What a piece means by a name that it uses. -/
def use? : Piece → Option Variable
  | literal _ => none
  | inserted _ => none
  | bound _ => none
  | used meant => some meant
  | initialised _ meant => some meant

/-- The member that a piece initialises, and by what. -/
def initialiser? : Piece → Option (String × Variable)
  | literal _ => none
  | inserted _ => none
  | bound _ => none
  | used _ => none
  | initialised member meant => some (member, meant)

/-- A fixed text holds neither the buffer nor a length. -/
def Plain : Piece → Prop
  | literal content =>
      ¬ "buffer".toList <:+: content.toList ∧ ¬ "len_".toList <:+: content.toList
  | _ => True

end Piece

def lineText : List Piece → String
  | [] => ""
  | piece :: rest => piece.text ++ lineText rest

def bindings (line : List Piece) : List Variable :=
  line.filterMap Piece.binding?

/-- What a line means by the names that it uses. -/
def uses (line : List Piece) : List Variable :=
  line.filterMap Piece.use?

/-- The members that a line initialises, and by what. -/
def initialisers (line : List Piece) : List (String × Variable) :=
  line.filterMap Piece.initialiser?

def offsetPieces (offset : Offset) : List Piece :=
  let lengths := offset.lengths.map fun length => .used (.length length)
  if offset.base = 0 ∧ offset.lengths ≠ [] then
    lengths.intersperse (.literal " + ")
  else
    (.inserted (decimal offset.base) :: lengths).intersperse (.literal " + ")

def signaturePieces (options : RenderOptions) (name : String) : List Piece :=
  [.inserted options.visibility, .literal " fn ", .inserted name, .literal "(",
    .bound .buffer,
    .literal ": &[u8]) -> ::core::result::Result<(Self, usize), ",
    .inserted options.runtimePath, .literal "::CodecError> \x7b"]

def requirePieces (options : RenderOptions) (size : Offset) : List Piece :=
  [.inserted (options.access "require"), .literal "(", .used .buffer,
      .literal ".len(), "] ++
    offsetPieces size ++ [.literal ")?;"]

/-- How the line that decodes a field begins. -/
def openingPieces (field : PlacedField) : List Piece :=
  match field.access with
  | .composite _ _ length =>
      [.literal "let (", .bound (.field field.name), .literal ", ",
        .bound (.length length), .literal ") = "]
  | _ => [.literal "let ", .bound (.field field.name), .literal " = "]

def calleePieces (options : RenderOptions) : Access → List Piece
  | .integer type _ =>
      [.inserted (options.access "read"), .literal "::<", .inserted type.spelling,
        .literal ">("]
  | .byte signed =>
      [.inserted (options.access "read"), .literal "::<",
        .inserted (IntegerType.byte signed).spelling, .literal ">("]
  | .enum name underlying _ =>
      [.inserted (options.access "read_enum"), .literal "::<", .inserted name,
        .literal ", ", .inserted underlying.spelling, .literal ">("]
  | .composite _ _ _ =>
      [.inserted (options.access "decode_nested"), .literal "("]

/-- The arguments behind the buffer and the offset. -/
def argumentPieces (options : RenderOptions) : Access → List Piece
  | .integer _ order =>
      [.literal ", ", .inserted (options.orderPath order), .literal ")?;"]
  | .byte _ =>
      [.literal ", ", .inserted (options.orderPath .little), .literal ")?;"]
  | .enum name _ order =>
      [.literal ", ", .inserted (options.orderPath order), .literal ", \"",
        .inserted name, .literal "\")?;"]
  | .composite name operation _ =>
      [.literal ", ", .inserted name, .literal "::",
        .inserted (operation.name "decode"), .literal ")?;"]

def readPieces (options : RenderOptions) (field : PlacedField) : List Piece :=
  openingPieces field ++ calleePieces options field.access ++
    [.used .buffer, .literal ", "] ++ offsetPieces field.offset ++
    argumentPieces options field.access

def constructPieces (fields : List String) : List Piece :=
  [.literal "let ", .bound .record] ++
    if fields = [] then
      [.literal " = Self \x7b\x7d;"]
    else
      [.literal " = Self \x7b "] ++
        ((fields.map fun field =>
            .initialised (memberName field) (.field field)).intersperse
          (.literal ", ")) ++
        [.literal " \x7d;"]

/-- The line of a statement of a decode procedure, which encodes no field. -/
def statementPieces (options : RenderOptions) : Statement → List Piece
  | .require size => requirePieces options size
  | .read field => readPieces options field
  | .write field => [.inserted (writeLine options field)]
  | .construct fields => constructPieces fields

def returnPieces (total : Offset) : List Piece :=
  [.literal "Ok((", .used .record, .literal ", "] ++
    offsetPieces total ++ [.literal "))"]

def decodePieces (options : RenderOptions) (procedure : Procedure) :
    List (List Piece) :=
  (.literal "    " :: signaturePieces options procedure.name) ::
    (procedure.body.map (statementPieces options) ++
        [returnPieces procedure.returns]).map (.literal "        " :: ·) ++
    [[.literal "    \x7d"]]

/-! ## The texts of the lines -/

@[simp]
theorem lineText_append (front back : List Piece) :
    lineText (front ++ back) = lineText front ++ lineText back := by
  induction front with
  | nil => exact String.empty_append.symm
  | cons piece rest inductionHypothesis =>
      rw [List.cons_append, lineText, inductionHypothesis, lineText,
        String.append_assoc]

private theorem lineText_intersperse (separator : String) (pieces : List Piece) :
    lineText (pieces.intersperse (.literal separator)) =
      separator.intercalate (pieces.map Piece.text) := by
  induction pieces with
  | nil => rfl
  | cons piece rest inductionHypothesis =>
      cases rest with
      | nil => simp [lineText]
      | cons second others =>
          rw [List.intersperse_cons_cons, lineText, lineText, inductionHypothesis,
            List.map_cons, List.map_cons, List.map_cons,
            String.intercalate_cons_cons, Piece.text, String.append_assoc]

private theorem lineText_offsetPieces (offset : Offset) :
    lineText (offsetPieces offset) = offset.sourceText := by
  have lengths :
      (offset.lengths.map fun length =>
            Piece.used (.length length)).map Piece.text =
        offset.lengths.map LengthVar.name := by
    rw [List.map_map]
    rfl
  rw [Offset.sourceText_eq, offsetPieces, Offset.summands]
  split
  · rw [lineText_intersperse, lengths]
  · rw [lineText_intersperse, List.map_cons, lengths]
    rfl

private theorem lineText_requirePieces (options : RenderOptions) (size : Offset) :
    lineText (requirePieces options size) = requireLine options size := by
  have opens : "(buffer.len(), " = "(" ++ ("buffer" ++ ".len(), ") := by
    decide
  rw [requirePieces, requireLine, opens]
  simp only [lineText_append, lineText_offsetPieces, lineText, Piece.text,
    Variable.name, String.append_assoc, String.append_empty]

private theorem lineText_readPieces (options : RenderOptions) (field : PlacedField) :
    lineText (readPieces options field) = readLine options field := by
  have typed : ">(buffer, " = ">(" ++ ("buffer" ++ ", ") := by
    decide
  have untyped : "(buffer, " = "(" ++ ("buffer" ++ ", ") := by
    decide
  unfold readPieces readLine openingPieces
  cases field.access <;>
    simp only [calleePieces, argumentPieces, lineText_append,
      lineText_offsetPieces, lineText, Piece.text, typed, untyped,
      Variable.name, String.append_assoc, String.append_empty]

private theorem lineText_constructPieces (fields : List String) :
    lineText (constructPieces fields) = constructLine fields := by
  have empty :
      "let result = Self \x7b\x7d;" = "let " ++ ("result" ++ " = Self \x7b\x7d;") := by
    decide
  have opens :
      "let result = Self \x7b " = "let " ++ ("result" ++ " = Self \x7b ") := by
    decide
  have initialisers :
      (fields.map fun field =>
            Piece.initialised (memberName field) (.field field)).map
          Piece.text =
        fields.map initialiser := by
    rw [List.map_map]
    rfl
  rw [constructPieces, constructLine]
  split
  · rw [empty]
    rfl
  · rw [opens]
    simp only [lineText_append, lineText_intersperse, initialisers, lineText,
      Piece.text, Variable.name, String.append_assoc, String.append_empty]

private theorem lineText_statementPieces (options : RenderOptions) (statement : Statement) :
    lineText (statementPieces options statement) =
      statementLine options statement := by
  cases statement with
  | require size => exact lineText_requirePieces options size
  | read field => exact lineText_readPieces options field
  | write field => exact String.append_empty
  | construct fields => exact lineText_constructPieces fields

/-- The pieces make up the source of the procedure. -/
theorem map_lineText_decodePieces
    (options : RenderOptions) {procedure : Procedure}
    (decodes : procedure.direction = .decode) :
    (decodePieces options procedure).map lineText =
      procedureLines options procedure := by
  have parameter :
      "(buffer: &[u8]) -> ::core::result::Result<(Self, usize), " =
        "(" ++ ("buffer" ++
          ": &[u8]) -> ::core::result::Result<(Self, usize), ") := by
    decide
  have result : "Ok((result, " = "Ok((" ++ ("result" ++ ", ") := by
    decide
  have body :
      (procedure.body.map (statementPieces options)).map lineText =
        procedure.body.map (statementLine options) := by
    rw [List.map_map]
    exact List.map_congr_left fun statement _ =>
      lineText_statementPieces options statement
  have indented : ∀ lines : List (List Piece),
      (lines.map (.literal "        " :: ·)).map lineText =
        (lines.map lineText).map ("        " ++ ·) := by
    intro lines
    rw [List.map_map, List.map_map]
    rfl
  have closing :
      lineText (returnPieces procedure.returns) = returnLine procedure := by
    rw [returnPieces, returnLine, decodes]
    simp only [result, lineText_append, lineText_offsetPieces, lineText,
      Piece.text, Variable.name, String.append_assoc, String.append_empty]
  have opening :
      lineText (.literal "    " :: signaturePieces options procedure.name) =
        "    " ++ signatureLine options procedure := by
    rw [signatureLine, decodes]
    simp only [parameter, signaturePieces, lineText, Piece.text,
      Variable.name, String.append_assoc, String.append_empty]
  rw [decodePieces, procedureLines, List.map_append, List.map_cons, opening,
    indented, List.map_append, body, List.map_singleton, closing]
  rfl

/-! ## The names of the lines -/

/-- The pieces of a line that bind or use names. -/
def names (line : List Piece) : List Piece :=
  line.filter Piece.isName

theorem bindings_names (line : List Piece) : bindings (names line) = bindings line := by
  rw [bindings, names, List.filterMap_filter]
  exact List.filterMap_congr fun piece _ => by cases piece <;> rfl

private theorem uses_names (line : List Piece) : uses (names line) = uses line := by
  rw [uses, names, List.filterMap_filter]
  exact List.filterMap_congr fun piece _ => by cases piece <;> rfl

theorem initialisers_names (line : List Piece) :
    initialisers (names line) = initialisers line := by
  rw [initialisers, names, List.filterMap_filter]
  exact List.filterMap_congr fun piece _ => by cases piece <;> rfl

private theorem names_append (front back : List Piece) :
    names (front ++ back) = names front ++ names back :=
  List.filter_append front back

private theorem names_intersperse (separator : String) (pieces : List Piece) :
    names (pieces.intersperse (.literal separator)) = names pieces := by
  induction pieces with
  | nil => rfl
  | cons first rest inductionHypothesis =>
      cases rest with
      | nil => rfl
      | cons second others =>
          rw [List.intersperse_cons_cons, names, List.filter_cons,
            List.filter_cons_of_neg Bool.false_ne_true, ← names,
            inductionHypothesis, names, names, ← List.filter_cons]

private theorem names_map
    {item : Type} {piece : item → Piece} (named : ∀ one, (piece one).isName = true)
    (items : List item) :
    names (items.map piece) = items.map piece := by
  rw [names, List.filter_eq_self]
  intro made member
  obtain ⟨one, _, rfl⟩ := List.mem_map.mp member
  exact named one

private theorem names_offsetPieces (offset : Offset) :
    names (offsetPieces offset) =
      offset.lengths.map fun length => .used (.length length) := by
  rw [offsetPieces]
  split
  · rw [names_intersperse, names_map fun _ => rfl]
  · rw [names_intersperse, names, List.filter_cons_of_neg Bool.false_ne_true,
      ← names, names_map fun _ => rfl]

end Source

def Statement.names : Statement → List Piece
  | require size =>
      .used .buffer ::
        size.lengths.map fun length => .used (.length length)
  | read field =>
      .bound (.field field.name) ::
        ((field.access.length?.toList.map fun length =>
            .bound (.length length)) ++
          .used .buffer ::
            field.offset.lengths.map fun length => .used (.length length))
  | write _ => []
  | construct fields =>
      .bound .record ::
        fields.map fun field => .initialised (memberName field) (.field field)

private theorem Source.names_statementPieces
    (options : RenderOptions) (statement : Statement) :
    names (statementPieces options statement) = statement.names := by
  cases statement with
  | require size =>
      rw [statementPieces, requirePieces, names_append, names_append,
        names_offsetPieces]
      exact List.append_nil _
  | read field =>
      rw [statementPieces, readPieces, names_append, names_append, names_append,
        names_append, names_offsetPieces, openingPieces, Statement.names]
      cases field.access <;> exact List.append_nil _
  | write field => rfl
  | construct fields =>
      rw [statementPieces, constructPieces, names_append, Statement.names]
      split
      · next empty =>
          rw [empty]
          rfl
      · rw [names_append, names_append, names_intersperse, names_map fun _ => rfl]
        exact congrArg (List.cons _) (List.append_nil _)

def PlacedField.bindings (field : PlacedField) : List Variable :=
  .field field.name :: field.access.length?.toList.map .length

namespace Statement

def bindings : Statement → List Variable
  | require _ => []
  | read field => field.bindings
  | write _ => []
  | construct _ => [.record]

def uses : Statement → List Variable
  | require size => .buffer :: size.lengths.map .length
  | read field => .buffer :: field.offset.lengths.map .length
  | write _ => []
  | construct fields => fields.map .field

def initialisers : Statement → List (String × Variable)
  | construct fields => fields.map fun field => (memberName field, .field field)
  | _ => []

end Statement

namespace Source

variable (options : RenderOptions) (statement : Statement)

theorem bindings_statementPieces :
    bindings (statementPieces options statement) = statement.bindings := by
  rw [← bindings_names, names_statementPieces, bindings]
  cases statement <;>
    simp [Statement.names, Statement.bindings, PlacedField.bindings,
      Function.comp_def, List.filterMap_cons, Piece.binding?]

theorem uses_statementPieces :
    uses (statementPieces options statement) = statement.uses := by
  rw [← uses_names, names_statementPieces, uses]
  cases statement <;>
    simp [Statement.names, Statement.uses, Function.comp_def, List.filterMap_cons,
      Piece.use?]

theorem initialisers_statementPieces :
    initialisers (statementPieces options statement) = statement.initialisers := by
  rw [← initialisers_names, names_statementPieces, initialisers]
  cases statement <;>
    simp [Statement.names, Statement.initialisers, Function.comp_def,
      List.filterMap_cons, Piece.initialiser?]

theorem names_returnPieces (total : Offset) :
    names (returnPieces total) =
      .used .record ::
        total.lengths.map fun length => .used (.length length) := by
  rw [returnPieces, names_append, names_append, names_offsetPieces]
  exact congrArg (List.cons _) (List.append_nil _)

theorem uses_returnPieces (total : Offset) :
    uses (returnPieces total) =
      .record :: total.lengths.map .length := by
  rw [← uses_names, names_returnPieces, uses]
  simp [Function.comp_def, Piece.use?]

/-- What is selected from the lines of a procedure, when fixed texts do not matter. -/
theorem flatMap_decodePieces
    {part : Type} (options : RenderOptions) (procedure : Procedure)
    {select : List Piece → List part} (ended : select [] = [])
    (passed : ∀ content line, select (.literal content :: line) = select line) :
    (decodePieces options procedure).flatMap select =
      select (signaturePieces options procedure.name) ++
        ((procedure.body.flatMap fun statement =>
            select (statementPieces options statement)) ++
          select (returnPieces procedure.returns)) := by
  simp [decodePieces, passed, ended, List.flatMap_map]

/-! ## Fixed texts -/

private theorem forall_mem_intersperse
    {item : Type} {property : item → Prop} {separator : item} {items : List item}
    (between : property separator) (each : ∀ one ∈ items, property one) :
    ∀ one ∈ items.intersperse separator, property one := by
  induction items with
  | nil => exact each
  | cons first rest inductionHypothesis =>
      obtain ⟨here, behind⟩ := List.forall_mem_cons.mp each
      cases rest with
      | nil => exact each
      | cons second others =>
          rw [List.intersperse_cons_cons, List.forall_mem_cons,
            List.forall_mem_cons]
          exact ⟨here, between, inductionHypothesis behind⟩

/-- No fixed text of the line holds the buffer or a length. -/
def PlainLine (line : List Piece) : Prop :=
  ∀ piece ∈ line, piece.Plain

@[simp]
theorem plainLine_nil : PlainLine [] :=
  List.forall_mem_nil _

@[simp]
theorem plainLine_cons {piece : Piece} {rest : List Piece} :
    PlainLine (piece :: rest) ↔ piece.Plain ∧ PlainLine rest :=
  List.forall_mem_cons

@[simp]
theorem plainLine_append {front back : List Piece} :
    PlainLine (front ++ back) ↔ PlainLine front ∧ PlainLine back :=
  List.forall_mem_append

private theorem plainLine_map
    {item : Type} {piece : item → Piece} (plain : ∀ one, (piece one).Plain)
    (items : List item) :
    PlainLine (items.map piece) :=
  List.forall_mem_map.mpr fun one _ => plain one

@[simp]
theorem plainLine_offsetPieces (offset : Offset) : PlainLine (offsetPieces offset) := by
  have separator : (Piece.literal " + ").Plain := by
    simp +decide [Piece.Plain]
  have lengths :
      PlainLine
        (offset.lengths.map fun length => Piece.used (.length length)) :=
    plainLine_map (by exact fun _ => trivial) _
  rw [offsetPieces]
  split
  · exact forall_mem_intersperse separator lengths
  · exact forall_mem_intersperse separator (plainLine_cons.mpr ⟨trivial, lengths⟩)

private theorem plainLine_statementPieces (options : RenderOptions) (statement : Statement) :
    PlainLine (statementPieces options statement) := by
  cases statement with
  | require size =>
      simp +decide [statementPieces, requirePieces, Piece.Plain]
  | read field =>
      rw [statementPieces, readPieces, openingPieces]
      cases field.access <;>
        simp +decide [calleePieces, argumentPieces, Piece.Plain]
  | write field => exact plainLine_cons.mpr ⟨trivial, plainLine_nil⟩
  | construct fields =>
      have initialised :
          PlainLine
            ((fields.map fun field =>
                Piece.initialised (memberName field) (.field field)).intersperse
              (.literal ", ")) :=
        forall_mem_intersperse (by simp +decide [Piece.Plain])
          (plainLine_map (by exact fun _ => trivial) _)
      rw [statementPieces, constructPieces]
      split
      · simp +decide [Piece.Plain]
      · simp +decide [Piece.Plain, initialised]

theorem plainLine_of_mem_decodePieces
    (options : RenderOptions) (procedure : Procedure) :
    ∀ line ∈ decodePieces options procedure, PlainLine line := by
  have indented : ∀ line, PlainLine line →
      PlainLine (.literal "        " :: line) := by
    intro line plain
    exact plainLine_cons.mpr ⟨by simp +decide [Piece.Plain], plain⟩
  rw [decodePieces, List.forall_mem_append, List.forall_mem_cons,
    List.forall_mem_singleton, List.forall_mem_map, List.forall_mem_append,
    List.forall_mem_map, List.forall_mem_singleton]
  refine ⟨⟨?_, ?_, ?_⟩, ?_⟩
  · simp +decide [signaturePieces, Piece.Plain]
  · intro statement _
    exact indented _ (plainLine_statementPieces options statement)
  · apply indented
    simp +decide [returnPieces, Piece.Plain]
  · simp +decide [Piece.Plain]

end Source

end PackedRecord
