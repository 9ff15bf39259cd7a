import Mathlib.Data.List.Infix
import PackedRecord.Source.Render

/-!
# Lines of rendered source

A function of a rendered record is found by the line that opens it.  The lines that
open functions are told apart from all others by their ends, and from each other by
what follows the name; so the functions that a rendered record defines are exactly
its procedures under their names.
-/

namespace PackedRecord

/-! ## Ends of texts -/

/-- Of two texts that complete others to the same, one ends in the other. -/
private theorem suffix_or_suffix_of_append
    {front back other ending : String} (same : front ++ back = other ++ ending) :
    back.toList <:+ ending.toList ∨ ending.toList <:+ back.toList := by
  have lists := congrArg String.toList same
  rw [String.toList_append, String.toList_append] at lists
  have first : back.toList <:+ front.toList ++ back.toList :=
    List.suffix_append _ _
  have second : ending.toList <:+ front.toList ++ back.toList := by
    rw [lists]
    exact List.suffix_append _ _
  exact List.suffix_or_suffix_of_suffix first second

private theorem getLast?_append_text
    (front : String) {back : String} {last : Char}
    (ends : back.toList.getLast? = some last) :
    (front ++ back).toList.getLast? = some last := by
  rw [String.toList_append, List.getLast?_append, ends, Option.some_or]

private theorem ByteOrder.eq_of_suffix
    {order other : ByteOrder}
    (ends : order.operationSuffix.toList <:+ other.operationSuffix.toList) :
    order = other := by
  revert ends
  cases order <;> cases other <;> decide

namespace Operation

/-- Operations that are both generic or both of an order have one name only if they
are the same and build it from one base. -/
theorem eq_of_name
    {first second : Operation} {base other : String}
    (alike : first = .generic ↔ second = .generic)
    (same : first.name base = second.name other) :
    first = second ∧ base = other := by
  cases first with
  | generic =>
      have isGeneric := alike.mp rfl
      rw [isGeneric] at same
      exact ⟨isGeneric.symm, same⟩
  | ordered order =>
      cases second with
      | generic => cases alike.mpr rfl
      | ordered otherOrder =>
          by_cases sameOrder : order = otherOrder
          · rw [sameOrder] at same ⊢
            exact ⟨rfl, (String.append_left_inj _).mp same⟩
          · rcases suffix_or_suffix_of_append same with ends | ends
            · exact absurd (ByteOrder.eq_of_suffix ends) sameOrder
            · exact absurd (ByteOrder.eq_of_suffix ends).symm sameOrder

end Operation

namespace Source

/-- The line that opens a function of a direction under a name. -/
def openingLine (options : RenderOptions) (direction : Direction)
    (name : String) : String :=
  "    " ++
    signatureLine options { name, direction, body := [], returns := {} }

/-- The rendered source of a record defines a function of a direction under a
name. -/
def Defines (options : RenderOptions) (generated : Generated)
    (direction : Direction) (name : String) : Prop :=
  openingLine options direction name ∈ generatedLines options generated

/-- The line that calls a function of the record that is nested in a field. -/
def callLine (options : RenderOptions) (direction : Direction)
    (field : PlacedField) (length : LengthVar) (target called : String) :
    String :=
  match direction with
  | .decode =>
      "let (" ++ localName field.name ++ ", " ++ length.name ++ ") = " ++
        options.access "decode_nested" ++ "(buffer, " ++
        field.offset.sourceText ++ ", " ++ target ++ "::" ++ called ++ ")?;"
  | .encode =>
      "let " ++ length.name ++ " = " ++ options.access "encode_nested" ++
        "(buffer, " ++ field.offset.sourceText ++ ", |rest| " ++
        ("self." ++ memberName field.name) ++ "." ++ called ++ "(rest))?;"

/-- A nested record is called by the default names, whatever the naming is. -/
theorem statementLine_touch_composite
    (options : RenderOptions) (direction : Direction) {field : PlacedField}
    {target : String} {operation : Operation} {length : LengthVar}
    (access : field.access = .composite target operation length) :
    statementLine options (direction.touch field) =
      callLine options direction field length target
        (operation.name (direction.baseName {})) := by
  cases direction with
  | decode =>
      show readLine options field = _
      unfold readLine
      rw [access]
      rfl
  | encode =>
      show writeLine options field = _
      unfold writeLine
      rw [access]
      rfl

section Lines

variable {options : RenderOptions} {direction other : Direction}
  {name second : String}

theorem openingLine_inj
    (same :
      openingLine options direction name = openingLine options other second) :
    direction = other ∧ name = second := by
  have apart : ∀ {first last : String},
      first ++ "(buffer: &[u8]) -> ::core::result::Result<(Self, usize), " ≠
        last ++ "(&self, buffer: &mut [u8]) -> ::core::result::Result<usize, " := by
    intro first last joined
    have ends := suffix_or_suffix_of_append joined
    revert ends
    decide
  unfold openingLine signatureLine at same
  simp only [String.append_assoc, String.append_right_inj] at same
  simp only [← String.append_assoc, String.append_left_inj] at same
  cases direction with
  | decode =>
      cases other with
      | decode => exact ⟨rfl, (String.append_left_inj _).mp same⟩
      | encode => exact absurd same apart
  | encode =>
      cases other with
      | decode => exact absurd same.symm apart
      | encode => exact ⟨rfl, (String.append_left_inj _).mp same⟩

private theorem getLast?_openingLine
    (options : RenderOptions) (direction : Direction) (name : String) :
    (openingLine options direction name).toList.getLast? = some '{' := by
  unfold openingLine signatureLine
  exact getLast?_append_text _ (getLast?_append_text _ (by decide))

private theorem getLast?_statementLine (statement : Statement) :
    (statementLine options statement).toList.getLast? = some ';' := by
  cases statement with
  | require size => exact getLast?_append_text _ (by decide)
  | read field =>
      show (readLine options field).toList.getLast? = some ';'
      unfold readLine
      cases field.access <;> exact getLast?_append_text _ (by decide)
  | write field =>
      show (writeLine options field).toList.getLast? = some ';'
      unfold writeLine
      cases field.access <;> exact getLast?_append_text _ (by decide)
  | construct fields =>
      show (constructLine fields).toList.getLast? = some ';'
      unfold constructLine
      split
      · decide
      · exact getLast?_append_text _ (by decide)

private theorem getLast?_returnLine (procedure : Procedure) :
    (returnLine procedure).toList.getLast? = some ')' := by
  unfold returnLine
  split <;> exact getLast?_append_text _ (by decide)

theorem statement_mem_procedureLines
    (options : RenderOptions) {procedure : Procedure} {statement : Statement}
    (member : statement ∈ procedure.body) :
    "        " ++ statementLine options statement ∈
      procedureLines options procedure := by
  have inBody :
      statementLine options statement ∈
        procedure.body.map (statementLine options) :=
    List.mem_map_of_mem member
  have indented :=
    List.mem_map_of_mem (f := ("        " ++ ·))
      (List.mem_append_left [returnLine procedure] inBody)
  exact List.mem_append_left _ (List.mem_append_right _ indented)

/-- The only line of a procedure that opens a function is its first. -/
theorem openingLine_mem_procedureLines_iff {procedure : Procedure} :
    openingLine options direction name ∈ procedureLines options procedure ↔
      procedure.direction = direction ∧ procedure.name = name := by
  have opens :
      "    " ++ signatureLine options procedure =
        openingLine options procedure.direction procedure.name :=
    rfl
  have ends := getLast?_openingLine options direction name
  rw [procedureLines, opens]
  constructor
  · intro member
    rcases List.mem_append.mp member with front | closing
    · rcases List.mem_append.mp front with first | inner
      · have same := openingLine_inj (List.mem_singleton.mp first)
        exact ⟨same.1.symm, same.2.symm⟩
      · -- Statements end in a semicolon, and results in a parenthesis.
        obtain ⟨line, lineMember, same⟩ := List.mem_map.mp inner
        rw [← same] at ends
        rcases List.mem_append.mp lineMember with body | result
        · obtain ⟨statement, _, rendered⟩ := List.mem_map.mp body
          rw [← rendered, getLast?_append_text _
            (getLast?_statementLine statement)] at ends
          cases ends
        · rw [List.mem_singleton.mp result, getLast?_append_text _
            (getLast?_returnLine procedure)] at ends
          cases ends
    · rw [List.mem_singleton.mp closing] at ends
      exact absurd ends (by decide)
  · intro same
    rw [same.1, same.2]
    exact List.mem_append_left _ List.mem_cons_self

theorem mem_pairLines_of_procedure
    {pair : CodecPair} {line : String}
    (member : line ∈ procedureLines options (pair.procedure direction)) :
    line ∈ pairLines options pair := by
  cases direction with
  | decode => exact List.mem_append_left _ member
  | encode => exact List.mem_append_right _ (List.mem_cons_of_mem _ member)

theorem exists_procedure_of_mem_pairLines
    {pair : CodecPair} {line : String} (notBlank : line ≠ "")
    (member : line ∈ pairLines options pair) :
    ∃ direction, line ∈ procedureLines options (pair.procedure direction) := by
  rcases List.mem_append.mp member with decode | encode
  · exact ⟨.decode, decode⟩
  · rcases List.mem_cons.mp encode with blank | encode
    · exact absurd blank notBlank
    · exact ⟨.encode, encode⟩

theorem mem_intercalate_blank
    {blocks : List (List String)} {line : String} (notBlank : line ≠ "") :
    line ∈ [""].intercalate blocks ↔ ∃ block ∈ blocks, line ∈ block := by
  rw [List.intercalate]
  induction blocks with
  | nil => simp
  | cons block rest inductionHypothesis =>
      cases rest with
      | nil => simp
      | cons second others =>
          rw [List.intersperse_cons_cons, List.flatten_cons, List.flatten_cons,
            List.mem_append, List.mem_append, inductionHypothesis,
            List.mem_singleton]
          simp [notBlank]

theorem mem_generatedLines_of_pair
    {generated : Generated} {pair : CodecPair}
    (offered : pair ∈ generated.codecs) {line : String} (notBlank : line ≠ "")
    (member : line ∈ pairLines options pair) :
    line ∈ generatedLines options generated := by
  have inBlocks :
      line ∈
        [""].intercalate (generated.codecs.map (pairLines options)) :=
    (mem_intercalate_blank notBlank).mpr
      ⟨_, List.mem_map_of_mem offered, member⟩
  exact List.mem_append_left _ (List.mem_cons_of_mem _ inBlocks)

/-- The functions that the rendered source of a record defines are the procedures of
its pairs. -/
theorem defines_iff
    {generated : Generated}
    (directed : ∀ pair ∈ generated.codecs, ∀ direction,
      (CodecPair.procedure pair direction).direction = direction) :
    Defines options generated direction name ↔
      ∃ pair ∈ generated.codecs, (pair.procedure direction).name = name := by
  have ends := getLast?_openingLine options direction name
  have notBlank : openingLine options direction name ≠ "" := by
    intro blank
    rw [blank] at ends
    cases ends
  constructor
  · intro defines
    rcases List.mem_append.mp defines with front | closing
    · rcases List.mem_cons.mp front with block | inner
      · -- The block itself is opened without a blank.
        have starts := congrArg (fun line => line.toList.head?) block
        simp only [openingLine, String.toList_append, List.head?_append] at starts
        cases starts
      · obtain ⟨_, blockMember, member⟩ :=
          (mem_intercalate_blank notBlank).mp inner
        obtain ⟨pair, offered, rendered⟩ := List.mem_map.mp blockMember
        rw [← rendered] at member
        obtain ⟨other, opened⟩ := exists_procedure_of_mem_pairLines notBlank member
        obtain ⟨sameDirection, named⟩ :=
          openingLine_mem_procedureLines_iff.mp opened
        rw [directed pair offered other] at sameDirection
        rw [sameDirection] at named
        exact ⟨pair, offered, named⟩
    · rw [List.mem_singleton.mp closing] at ends
      exact absurd ends (by decide)
  · intro defined
    obtain ⟨pair, offered, named⟩ := defined
    have opened :
        openingLine options direction name ∈
          procedureLines options (pair.procedure direction) :=
      openingLine_mem_procedureLines_iff.mpr
        ⟨directed pair offered direction, named⟩
    exact mem_generatedLines_of_pair offered notBlank
      (mem_pairLines_of_procedure opened)

end Lines

end Source

end PackedRecord
