import PackedRecord.Proofs.ReadableText

/-!
# Lines that are read back

The lines of a rendered decode procedure tell its statements.  A line that binds a local
has a heading, which is free of spaces, and a keyword behind it; the keyword says what
kind of access follows, and so how to read on.

A local may stand for a field of either of two names.  The line that builds the record
names the members, and settles which field it is.
-/

namespace PackedRecord

open Text Source

/-! ## Spelled types -/

namespace IntegerType

private theorem spelling_of_ofPrimitive?
    {scalar : Primitive} {type : IntegerType}
    (stored : ofPrimitive? scalar = some type) :
    type.spelling = scalar.name := by
  cases scalar <;> cases stored <;> rfl

private theorem ofPrimitive?_byte (signed : Bool) :
    ∃ scalar, ofPrimitive? scalar = some (byte signed) := by
  cases signed with
  | false => exact ⟨.u8, rfl⟩
  | true => exact ⟨.i8, rfl⟩

end IntegerType

private theorem Primitive.word_name (scalar : Primitive) : Word scalar.name := by
  cases scalar <;> decide

private theorem Primitive.name_inj
    {scalar other : Primitive} (same : scalar.name = other.name) :
    scalar = other := by
  have found := ofName?_name scalar
  rw [same, ofName?_name] at found
  exact (Option.some.inj found).symm

/-- The integer types that have a spelling of their own. -/
def IntegerType.Stored (type : IntegerType) : Prop :=
  ∃ scalar, ofPrimitive? scalar = some type

namespace IntegerType.Stored

variable {type other : IntegerType}

theorem word (stored : type.Stored) : Word type.spelling := by
  obtain ⟨scalar, found⟩ := stored
  rw [spelling_of_ofPrimitive? found]
  exact scalar.word_name

private theorem spelling_inj
    (stored : type.Stored) (otherStored : other.Stored)
    (same : type.spelling = other.spelling) :
    type = other := by
  obtain ⟨scalar, found⟩ := stored
  obtain ⟨otherScalar, otherFound⟩ := otherStored
  rw [spelling_of_ofPrimitive? found, spelling_of_ofPrimitive? otherFound] at same
  rw [Primitive.name_inj same, otherFound] at found
  exact (Option.some.inj found).symm

end IntegerType.Stored

private theorem ByteOrder.word_suffix (order : ByteOrder) :
    Word order.operationSuffix := by
  cases order <;> decide

private theorem Operation.word_name
    {base : String} (word : Word base) (operation : Operation) :
    Word (operation.name base) := by
  cases operation with
  | generic => exact word
  | ordered order => exact word.append order.word_suffix

/-! ## Lines that bind locals -/

namespace Source

/-- What a line of a decode procedure binds a local to. -/
inductive BindingKind
  | number
  | enum
  | nested
  | record
  deriving DecidableEq

namespace BindingKind

/-- What stands behind the heading of a line of the kind. -/
def keyword : BindingKind → String
  | number => " = " ++ ({} : RenderOptions).access "read" ++ "::<"
  | enum => " = " ++ ({} : RenderOptions).access "read_enum" ++ "::<"
  | nested => " len_"
  | record => " = Self "

/-- The heading of a line of the kind that binds a local. -/
def heading (target : String) : BindingKind → String
  | nested => "(" ++ target ++ ","
  | _ => target

def keywords : List String :=
  [number.keyword, enum.keyword, nested.keyword, record.keyword]

private theorem keyword_mem (kind : BindingKind) : kind.keyword ∈ keywords := by
  cases kind <;> decide

private theorem keyword_apart :
    ∀ first ∈ keywords, ∀ second ∈ keywords,
      first.toList <+: second.toList → first = second := by
  decide

private theorem keyword_inj
    {kind other : BindingKind} (same : kind.keyword = other.keyword) :
    kind = other := by
  revert same
  cases kind <;> cases other <;> decide

private theorem head?_keyword (kind : BindingKind) :
    kind.keyword.toList.head? = some ' ' := by
  cases kind <;> decide

private theorem free_heading
    {target : String} (word : Word target) (kind : BindingKind) :
    Free ' ' (kind.heading target) := by
  have free := word.free (by decide : ¬ WordCharacter ' ')
  cases kind with
  | nested =>
      rw [heading, free_append_iff, free_append_iff]
      exact ⟨⟨by decide, free⟩, by decide⟩
  | _ => exact free

private theorem heading_inj
    {kind : BindingKind} {target other : String}
    (same : kind.heading target = kind.heading other) :
    target = other := by
  cases kind with
  | nested =>
      rw [heading, heading, String.append_left_inj, String.append_right_inj]
        at same
      exact same
  | _ => exact same

end BindingKind

def bindingLine (target : String) (kind : BindingKind) (rest : String) : String :=
  "let " ++ (kind.heading target ++ (kind.keyword ++ rest))

private theorem bindingLine_inj
    {target other rest ending : String} {kind otherKind : BindingKind}
    (word : Word target) (otherWord : Word other)
    (same :
      bindingLine target kind rest = bindingLine other otherKind ending) :
    target = other ∧ kind = otherKind ∧ rest = ending := by
  obtain ⟨sameHeading, sameBack⟩ :=
    cut_at_mark (kind.free_heading word) (otherKind.free_heading otherWord)
      (head?_append_text kind.head?_keyword rest)
      (head?_append_text otherKind.head?_keyword ending)
      ((String.append_right_inj _).mp same)
  obtain ⟨sameKeyword, sameRest⟩ :=
    eq_of_pieces BindingKind.keyword_apart kind.keyword_mem
      otherKind.keyword_mem sameBack
  obtain rfl := BindingKind.keyword_inj sameKeyword
  exact ⟨BindingKind.heading_inj sameHeading, rfl, sameRest⟩

end Source

/-! ## Accesses -/

/-- An access whose source can be read: the names that it takes over are identifiers,
and its integers have spellings.  Single bytes are accessed as such. -/
inductive Access.Legible : Access → Prop
  | integer {type : IntegerType} (order : ByteOrder) (stored : type.Stored)
      (wide : type.width ≠ 1) :
      Legible (.integer type order)
  | byte (signed : Bool) : Legible (.byte signed)
  | enum {name : String} {underlying : IntegerType} (order : ByteOrder)
      (named : Identifier name) (stored : underlying.Stored) :
      Legible (.enum name underlying order)
  | composite {name : String} (operation : Operation) (length : LengthVar)
      (named : Identifier name) :
      Legible (.composite name operation length)

namespace Access

/-- What the line that reads through the access binds its local to. -/
def bindingKind : Access → BindingKind
  | integer _ _ => .number
  | byte _ => .number
  | enum _ _ _ => .enum
  | composite _ _ _ => .nested

private theorem bindingKind_ne_record (access : Access) :
    access.bindingKind ≠ .record := by
  intro same
  cases access <;> cases same

/-- The source of an integer that is read, behind the keyword. -/
def numberRest (type : IntegerType) (order : ByteOrder) (start : String) :
    String :=
  type.spelling ++
    (">(buffer, " ++
      (start ++ (", " ++ (({} : RenderOptions).orderPath order ++ ")?;"))))

/-- What stands behind the keyword of the line that reads through the access. -/
def bindingRest (start : String) : Access → String
  | integer type order => numberRest type order start
  | byte signed => numberRest (.byte signed) .little start
  | enum name underlying order =>
      name ++
        (", " ++
          (underlying.spelling ++
            (">(buffer, " ++
              (start ++
                (", " ++
                  (({} : RenderOptions).orderPath order ++
                    (", \"" ++ (name ++ "\")?;"))))))))
  | composite name operation length =>
      decimal length.number ++
        (") = " ++
          (({} : RenderOptions).access "decode_nested" ++
            ("(buffer, " ++
              (start ++
                (", " ++
                  (name ++ ("::" ++ (operation.name "decode" ++ ")?;"))))))))

end Access

private theorem Source.readLine_eq (field : PlacedField) :
    readLine {} field =
      bindingLine (localName field.name) field.access.bindingKind
        (field.access.bindingRest field.offset.sourceText) := by
  have opens : "let (" = "let " ++ "(" := by
    decide
  have binds : ", " ++ "len_" = "," ++ " len_" := by
    decide
  unfold readLine bindingLine
  cases field.access with
  | composite name operation length =>
      simp only [Access.bindingKind, Access.bindingRest, BindingKind.heading,
        BindingKind.keyword, LengthVar.name, opens, String.append_assoc]
      rw [← @String.append_assoc ", ", binds, String.append_assoc]
  | _ =>
      simp only [Access.bindingKind, Access.bindingRest, Access.numberRest,
        BindingKind.heading, BindingKind.keyword, String.append_assoc]

private theorem Source.orderPath_inj
    {order other : ByteOrder} {rest ending : String}
    (same :
      ({} : RenderOptions).orderPath order ++ rest =
        ({} : RenderOptions).orderPath other ++ ending) :
    order = other ∧ rest = ending := by
  have apart :
      ∀ first ∈
        [({} : RenderOptions).orderPath .little,
          ({} : RenderOptions).orderPath .big],
        ∀ second ∈
          [({} : RenderOptions).orderPath .little,
            ({} : RenderOptions).orderPath .big],
          first.toList <+: second.toList → first = second := by
    decide
  obtain ⟨samePath, sameRest⟩ :=
    eq_of_pieces apart (by cases order <;> simp) (by cases other <;> simp) same
  refine ⟨?_, sameRest⟩
  revert samePath
  cases order <;> cases other <;> decide

private theorem Operation.name_decode_inj
    {operation other : Operation}
    (same : operation.name "decode" = other.name "decode") :
    operation = other := by
  revert same
  rcases operation with _ | _ | _ <;> rcases other with _ | _ | _ <;> decide

namespace Access

variable {start otherStart : String} (free : Free ',' start)
  (otherFree : Free ',' otherStart)
include free otherFree

private theorem numberRest_inj
    {type otherType : IntegerType} {order otherOrder : ByteOrder}
    (stored : type.Stored) (otherStored : otherType.Stored)
    (same :
      numberRest type order start =
        numberRest otherType otherOrder otherStart) :
    type = otherType ∧ order = otherOrder ∧ start = otherStart := by
  obtain ⟨sameType, sameBack⟩ :=
    cut_word '>' (by decide) (by decide) stored.word otherStored.word same
  obtain ⟨sameStart, sameOrder⟩ :=
    cut_at_piece ',' (by decide) free otherFree sameBack
  exact ⟨stored.spelling_inj otherStored sameType, (orderPath_inj sameOrder).1,
    sameStart⟩

private theorem enumRest_inj
    {name otherName : String} {underlying otherUnderlying : IntegerType}
    {order otherOrder : ByteOrder} (named : Identifier name)
    (otherNamed : Identifier otherName) (stored : underlying.Stored)
    (otherStored : otherUnderlying.Stored)
    (same :
      (enum name underlying order).bindingRest start =
        (enum otherName otherUnderlying otherOrder).bindingRest otherStart) :
    name = otherName ∧
      underlying = otherUnderlying ∧ order = otherOrder ∧ start = otherStart := by
  obtain ⟨sameName, behindName⟩ :=
    cut_word ',' (by decide) (by decide) named.word otherNamed.word same
  obtain ⟨sameType, behindType⟩ :=
    cut_word '>' (by decide) (by decide) stored.word otherStored.word behindName
  obtain ⟨sameStart, behindStart⟩ :=
    cut_at_piece ',' (by decide) free otherFree behindType
  exact ⟨sameName, stored.spelling_inj otherStored sameType,
    (orderPath_inj behindStart).1, sameStart⟩

private theorem compositeRest_inj
    {name otherName : String} {operation otherOperation : Operation}
    {length otherLength : LengthVar} (named : Identifier name)
    (otherNamed : Identifier otherName)
    (same :
      (composite name operation length).bindingRest start =
        (composite otherName otherOperation otherLength).bindingRest
          otherStart) :
    name = otherName ∧
      operation = otherOperation ∧ length = otherLength ∧ start = otherStart := by
  obtain ⟨sameNumber, behindNumber⟩ :=
    cut_word ')' (by decide) (by decide) (word_decimal _) (word_decimal _) same
  rw [String.append_right_inj, String.append_right_inj] at behindNumber
  obtain ⟨sameStart, behindStart⟩ :=
    cut_at_piece ',' (by decide) free otherFree behindNumber
  obtain ⟨sameName, behindName⟩ :=
    cut_word ':' (by decide) (by decide) named.word otherNamed.word behindStart
  have sameOperation :=
    Operation.name_decode_inj ((String.append_left_inj _).mp behindName)
  have sameLength : length = otherLength :=
    Offset.lengthName_inj (congrArg ("len_" ++ ·) sameNumber)
  exact ⟨sameName, sameOperation, sameLength, sameStart⟩

/-- Behind the same keyword the access and its place are read back. -/
private theorem bindingRest_inj
    {access other : Access} (legible : access.Legible)
    (otherLegible : other.Legible)
    (sameKind : access.bindingKind = other.bindingKind)
    (same : access.bindingRest start = other.bindingRest otherStart) :
    access = other ∧ start = otherStart := by
  cases legible with
  | @integer type order stored wide =>
      cases otherLegible with
      | @integer otherType otherOrder otherStored otherWide =>
          obtain ⟨rfl, rfl, sameStart⟩ :=
            numberRest_inj free otherFree stored otherStored same
          exact ⟨rfl, sameStart⟩
      | byte signed =>
          -- The line of a byte is that of an integer of one byte; only the width
          -- tells that the integer is not one.
          obtain ⟨rfl, _⟩ :=
            numberRest_inj free otherFree stored
              (IntegerType.ofPrimitive?_byte signed) same
          exact absurd rfl wide
      | enum => cases sameKind
      | composite => cases sameKind
  | byte signed =>
      cases otherLegible with
      | @integer otherType otherOrder otherStored otherWide =>
          obtain ⟨rfl, _⟩ :=
            numberRest_inj free otherFree
              (IntegerType.ofPrimitive?_byte signed) otherStored same
          exact absurd rfl otherWide
      | byte otherSigned =>
          obtain ⟨sameType, _, sameStart⟩ :=
            numberRest_inj free otherFree
              (IntegerType.ofPrimitive?_byte signed)
              (IntegerType.ofPrimitive?_byte otherSigned) same
          cases sameType
          exact ⟨rfl, sameStart⟩
      | enum => cases sameKind
      | composite => cases sameKind
  | @enum name underlying order named stored =>
      cases otherLegible with
      | integer => cases sameKind
      | byte => cases sameKind
      | @enum otherName otherUnderlying otherOrder otherNamed otherStored =>
          obtain ⟨rfl, rfl, rfl, sameStart⟩ :=
            enumRest_inj free otherFree named otherNamed stored otherStored same
          exact ⟨rfl, sameStart⟩
      | composite => cases sameKind
  | @composite name operation length named =>
      cases otherLegible with
      | integer => cases sameKind
      | byte => cases sameKind
      | enum => cases sameKind
      | @composite otherName otherOperation otherLength otherNamed =>
          obtain ⟨rfl, rfl, rfl, sameStart⟩ :=
            compositeRest_inj free otherFree named otherNamed same
          exact ⟨rfl, sameStart⟩

end Access

/-! ## Lines of statements -/

structure PlacedField.Legible (field : PlacedField) : Prop where
  named : Identifier field.name
  access : field.access.Legible

/-- The field under the name of its local. -/
def PlacedField.told (field : PlacedField) : PlacedField :=
  { field with name := localName field.name }

namespace Source

private theorem readLine_inj
    {field other : PlacedField} (legible : field.Legible)
    (otherLegible : other.Legible)
    (same : readLine {} field = readLine {} other) :
    localName field.name = localName other.name ∧
      field.access = other.access ∧ field.offset = other.offset := by
  rw [readLine_eq, readLine_eq] at same
  obtain ⟨sameLocal, sameKind, sameRest⟩ :=
    bindingLine_inj (word_localName legible.named)
      (word_localName otherLegible.named) same
  obtain ⟨sameAccess, sameStart⟩ :=
    Access.bindingRest_inj
      (field.offset.free_sourceText (by decide) (by decide))
      (other.offset.free_sourceText (by decide) (by decide)) legible.access
      otherLegible.access sameKind sameRest
  exact ⟨sameLocal, sameAccess, Offset.sourceText_inj sameStart⟩

/-- An initialiser with a colon behind it starts with the member and a colon. -/
private theorem initialiser_append_colon (field : String) :
    ∃ rest,
      initialiser field ++ ":" = memberName field ++ rest ∧
        rest.toList.head? = some ':' := by
  unfold initialiser
  split
  · exact ⟨":", rfl, by decide⟩
  · refine ⟨": " ++ (localName field ++ ":"), ?_, ?_⟩
    · rw [String.append_assoc, String.append_assoc]
    · exact head?_append_text (by decide) _

private theorem initialiser_inj
    {field other : String} (named : Identifier field)
    (otherNamed : Identifier other) (same : initialiser field = initialiser other) :
    field = other := by
  obtain ⟨rest, spelled, begins⟩ := initialiser_append_colon field
  obtain ⟨ending, otherSpelled, otherBegins⟩ := initialiser_append_colon other
  rw [same, otherSpelled] at spelled
  obtain ⟨sameMember, _⟩ :=
    cut_at_mark ((word_memberName otherNamed).free (by decide))
      ((word_memberName named).free (by decide)) otherBegins begins spelled
  exact memberName_inj named otherNamed sameMember.symm

private theorem free_initialiser {field : String} (named : Identifier field) :
    Free ',' (initialiser field) := by
  have member := (word_memberName named).free (by decide : ¬ WordCharacter ',')
  have target := (word_localName named).free (by decide : ¬ WordCharacter ',')
  unfold initialiser
  split
  · exact member
  · rw [free_append_iff, free_append_iff]
    exact ⟨⟨member, by decide⟩, target⟩

/-- The members of a record that is built, as the line lists them. -/
def memberList (fields : List String) : String :=
  if fields = [] then
    "\x7b\x7d;"
  else
    "\x7b " ++ (", ".intercalate (fields.map initialiser) ++ " \x7d;")

private theorem constructLine_eq (fields : List String) :
    constructLine fields = bindingLine "result" .record (memberList fields) := by
  have empty :
      "let result = Self \x7b\x7d;" =
        "let " ++ ("result" ++ (" = Self " ++ "\x7b\x7d;")) := by
    decide
  have opens :
      "let result = Self \x7b " =
        "let " ++ ("result" ++ (" = Self " ++ "\x7b ")) := by
    decide
  unfold constructLine memberList bindingLine
  split
  · exact empty
  · rw [opens]
    simp only [BindingKind.heading, BindingKind.keyword, String.append_assoc]

private theorem memberList_inj
    {fields others : List String} (named : ∀ field ∈ fields, Identifier field)
    (otherNamed : ∀ field ∈ others, Identifier field)
    (same : memberList fields = memberList others) :
    fields = others := by
  have notEmpty : ∀ text : String, "\x7b\x7d;" ≠ "\x7b " ++ text := by
    intro text same
    have lists := congrArg String.toList same
    rw [String.toList_append] at lists
    cases lists
  unfold memberList at same
  split at same
  · next empty =>
      split at same
      · next otherEmpty => rw [empty, otherEmpty]
      · exact absurd same (notEmpty _)
  · next present =>
      split at same
      · exact absurd same.symm (notEmpty _)
      · next otherPresent =>
          have begins : ", ".toList.head? = some ',' := by
            decide
          have listed :
              ", ".intercalate (fields.map initialiser) =
                ", ".intercalate (others.map initialiser) :=
            (String.append_left_inj _).mp ((String.append_right_inj _).mp same)
          have initialised :=
            intercalate_inj begins (mt List.map_eq_nil_iff.mp present)
              (mt List.map_eq_nil_iff.mp otherPresent)
              (List.forall_mem_map.mpr fun field member =>
                free_initialiser (named field member))
              (List.forall_mem_map.mpr fun field member =>
                free_initialiser (otherNamed field member))
              listed
          have told : fields.map id = others.map id :=
            map_eq_of_map_eq (fun _ _ => initialiser_inj) named otherNamed
              initialised
          rwa [List.map_id, List.map_id] at told

/-- No line that binds a local demands a size. -/
private theorem requireLine_ne_bindingLine
    {size : Offset} {target rest : String} {kind : BindingKind} :
    requireLine {} size ≠ bindingLine target kind rest := by
  intro same
  have begins :
      (({} : RenderOptions).access "require").toList.head? = some ':' := by
    decide
  have other : "let ".toList.head? = some 'l' := by
    decide
  have starts := congrArg (fun line : String => line.toList.head?) same
  simp only [requireLine, bindingLine, String.append_assoc,
    head?_append_text begins, head?_append_text other] at starts
  cases starts

private theorem requireLine_inj
    {size other : Offset} (same : requireLine {} size = requireLine {} other) :
    size = other := by
  rw [requireLine, requireLine, String.append_left_inj, String.append_right_inj]
    at same
  exact Offset.sourceText_inj same

end Source

namespace Statement

/-- A statement of a decode procedure whose line can be read. -/
def Legible : Statement → Prop
  | require _ => True
  | read field => field.Legible
  | write _ => False
  | construct fields => ∀ field ∈ fields, Identifier field

/-- The statement with the local of a field in the place of its name.  A line that reads
a field tells no more. -/
def told : Statement → Statement
  | read field => .read field.told
  | write field => .write field.told
  | statement => statement

/-- The line of a statement is read back. -/
theorem told_of_statementLine
    {statement other : Statement} (legible : statement.Legible)
    (otherLegible : other.Legible)
    (same : statementLine {} statement = statementLine {} other) :
    statement.told = other.told := by
  cases statement with
  | require size =>
      cases other with
      | require otherSize =>
          rw [requireLine_inj same]
      | read otherField =>
          rw [statementLine, statementLine, readLine_eq] at same
          exact absurd same requireLine_ne_bindingLine
      | write otherField => cases otherLegible
      | construct others =>
          rw [statementLine, statementLine, constructLine_eq] at same
          exact absurd same requireLine_ne_bindingLine
  | read field =>
      cases other with
      | require otherSize =>
          rw [statementLine, statementLine, readLine_eq] at same
          exact absurd same.symm requireLine_ne_bindingLine
      | read otherField =>
          obtain ⟨sameLocal, sameAccess, sameOffset⟩ :=
            readLine_inj legible otherLegible same
          rw [told, told, PlacedField.told, PlacedField.told, sameLocal,
            sameAccess, sameOffset]
      | write otherField => cases otherLegible
      | construct others =>
          rw [statementLine, statementLine, readLine_eq, constructLine_eq] at same
          obtain ⟨_, sameKind, _⟩ :=
            bindingLine_inj (word_localName legible.named) (by decide) same
          exact absurd sameKind field.access.bindingKind_ne_record
  | write field => cases legible
  | construct fields =>
      cases other with
      | require otherSize =>
          rw [statementLine, statementLine, constructLine_eq] at same
          exact absurd same.symm requireLine_ne_bindingLine
      | read otherField =>
          rw [statementLine, statementLine, readLine_eq, constructLine_eq] at same
          obtain ⟨_, sameKind, _⟩ :=
            bindingLine_inj (by decide) (word_localName otherLegible.named) same
          exact absurd sameKind.symm otherField.access.bindingKind_ne_record
      | write otherField => cases otherLegible
      | construct others =>
          rw [statementLine, statementLine, constructLine_eq, constructLine_eq]
            at same
          obtain ⟨_, _, sameMembers⟩ :=
            bindingLine_inj (by decide) (by decide) same
          rw [memberList_inj legible otherLegible sameMembers]

end Statement

/-! ## One line for each statement -/

namespace Source

theorem free_of_word {text : String} (word : Word text) : Free '\n' text :=
  word.free (by decide)

theorem free_offset (offset : Offset) : Free '\n' offset.sourceText :=
  offset.free_sourceText (by decide) (by decide)

private theorem free_orderPath (order : ByteOrder) :
    Free '\n' (({} : RenderOptions).orderPath order) := by
  cases order <;> decide

private theorem free_spelling {type : IntegerType} (stored : type.Stored) :
    Free '\n' type.spelling :=
  free_of_word stored.word

theorem free_operationName (operation : Operation) {base : String}
    (word : Word base) :
    Free '\n' (operation.name base) :=
  free_of_word (operation.word_name word)

theorem free_readLine {field : PlacedField} (legible : field.Legible) :
    Free '\n' (readLine {} field) := by
  obtain ⟨name, access, offset⟩ := field
  obtain ⟨named, readable⟩ := legible
  have target := free_of_word (word_localName named)
  have start := free_offset offset
  cases readable with
  | integer order stored wide =>
      simp +decide [readLine, target, start, free_spelling stored,
        free_orderPath]
  | byte signed =>
      have spelled := free_spelling (IntegerType.ofPrimitive?_byte signed)
      simp +decide [readLine, target, start, spelled]
  | enum order typeNamed stored =>
      simp +decide [readLine, target, start, free_spelling stored,
        free_orderPath, free_of_word typeNamed.word]
  | composite operation length typeNamed =>
      have called : Free '\n' (operation.name "decode") :=
        free_operationName operation (by decide)
      simp +decide [readLine, target, start, called,
        free_of_word typeNamed.word, free_of_word (Offset.word_length length)]

theorem free_writeLine {field : PlacedField} (legible : field.Legible) :
    Free '\n' (writeLine {} field) := by
  obtain ⟨name, access, offset⟩ := field
  obtain ⟨named, readable⟩ := legible
  have member := free_of_word (word_memberName named)
  have start := free_offset offset
  cases readable with
  | integer order stored wide =>
      simp +decide [writeLine, member, start, free_spelling stored,
        free_orderPath]
  | byte signed =>
      have spelled := free_spelling (IntegerType.ofPrimitive?_byte signed)
      simp +decide [writeLine, member, start, spelled]
  | enum order typeNamed stored =>
      simp +decide [writeLine, member, start, free_spelling stored,
        free_orderPath]
  | composite operation length typeNamed =>
      have called : Free '\n' (operation.name "encode") :=
        free_operationName operation (by decide)
      simp +decide [writeLine, member, start, called,
        free_of_word (Offset.word_length length)]

theorem free_requireLine (size : Offset) : Free '\n' (requireLine {} size) := by
  simp +decide [requireLine, free_offset]

theorem free_constructLine
    {fields : List String} (named : ∀ field ∈ fields, Identifier field) :
    Free '\n' (constructLine fields) := by
  have initialised :
      Free '\n' (", ".intercalate (fields.map initialiser)) := by
    apply free_intercalate (by decide)
    refine List.forall_mem_map.mpr ?_
    intro field member
    have spelled := free_of_word (word_memberName (named field member))
    have target := free_of_word (word_localName (named field member))
    unfold initialiser
    split
    · exact spelled
    · simp +decide [spelled, target]
  unfold constructLine
  split
  · decide
  · simp +decide [initialised]

end Source

end PackedRecord
