import PackedRecord.Bytes.FixedWidth
import PackedRecord.Proofs.CursorRun
import PackedRecord.Proofs.WellFormedBuffer

/-!
# Typed words and placed fields

Rendered code reads and writes machine integers of the width of a field; a codec that
is run keeps every integer in a word and repeats its sign by shifting.  Both come to the
same integers, the same bytes and the same errors.

What the eight machine integers have in common is `FixedWidth.Lawful`: narrowing a word
gives the integer that the word stands for, and widening an integer gives its word.
-/

namespace PackedRecord

theorem IntegerType.ofInt_toInt (word : Int64) :
    UInt64.ofInt word.toInt = word.toUInt64 := by
  apply UInt64.toNat_inj.mp
  have stored := toNat_ofInt word.toInt
  have nearest : word.toInt = (word.toUInt64.toNat : Int).bmod (2 ^ 64) :=
    BitVec.toInt_eq_toNat_bmod word.toBitVec
  have residue :
      word.toInt % (2 ^ 64 : Nat) = word.toUInt64.toNat % (2 ^ 64 : Nat) := by
    rw [nearest, Int.bmod_emod]
  have small := word.toUInt64.toNat_lt
  omega

namespace FixedWidth

/-- A machine integer stands for itself in a word, and for what its type holds. -/
structure Lawful (integer : Type) [FixedWidth integer] : Prop where
  sized : (type integer).Sized
  toInt_ofWord :
    ∀ word : UInt64,
      word.toNat < 2 ^ (type integer).bits →
        toInt (ofWord word : integer) = (type integer).number word
  toWord_eq : ∀ value : integer, toWord value = UInt64.ofInt (toInt value)
  holds : ∀ value : integer, (type integer).Holds (toInt value)

section Lawful

variable {integer : Type} [FixedWidth integer]

/-- An unsigned integer is the residue of its word. -/
theorem Lawful.of_unsigned
    (sized : (type integer).Sized) (unsigned : (type integer).signed = false)
    (narrowed :
      ∀ word : UInt64,
        toInt (ofWord word : integer) =
          (word.toNat % 2 ^ (type integer).bits : Nat))
    (widened :
      ∀ value : integer, toInt value = ((toWord value).toNat : Int))
    (below :
      ∀ value : integer, toInt value < (2 ^ (type integer).bits : Nat)) :
    Lawful integer := by
  refine { sized, toInt_ofWord := ?_, toWord_eq := ?_, holds := ?_ }
  · intro word small
    rw [narrowed, Nat.mod_eq_of_lt small,
      IntegerType.number_eq_toNat word unsigned]
  · intro value
    rw [widened, IntegerType.ofInt_toNat]
  · intro value
    have positive := widened value
    have bounded := below value
    rw [IntegerType.Holds, IntegerType.least, IntegerType.greatest, unsigned]
    push_cast at bounded
    simp only [Bool.false_eq_true, if_false]
    omega

/-- A signed integer is the residue of its word that is nearest to zero. -/
theorem Lawful.of_signed
    (sized : (type integer).Sized) (signed : (type integer).signed = true)
    (narrowed :
      ∀ word : UInt64,
        toInt (ofWord word : integer) =
          (word.toNat : Int).bmod (2 ^ (type integer).bits))
    (widened :
      ∀ value : integer,
        ∃ long : Int64, toWord value = long.toUInt64 ∧ long.toInt = toInt value)
    (holds : ∀ value : integer, (type integer).Holds (toInt value)) :
    Lawful integer := by
  refine { sized, toInt_ofWord := ?_, toWord_eq := ?_, holds }
  · intro word _
    rw [narrowed, IntegerType.number_eq_bmod sized word signed]
  · intro value
    obtain ⟨long, word, same⟩ := widened value
    rw [word, ← same, IntegerType.ofInt_toInt]

end Lawful

theorem lawful_uint8 : Lawful UInt8 := by
  apply Lawful.of_unsigned ⟨by decide, by decide⟩ rfl
  · intro word
    exact congrArg Nat.cast word.toNat_toUInt8
  · intro value
    exact congrArg Nat.cast value.toNat_toUInt64.symm
  · intro value
    exact Int.ofNat_lt.mpr value.toNat_lt

theorem lawful_int8 : Lawful Int8 := by
  apply Lawful.of_signed ⟨by decide, by decide⟩ rfl
  · intro word
    exact BitVec.toInt_setWidth word.toBitVec
  · intro value
    exact ⟨value.toInt64, rfl, value.toInt_toInt64⟩
  · intro value
    exact ⟨value.le_toInt, Int.le_sub_one_of_lt value.toInt_lt⟩

theorem lawful_uint16 : Lawful UInt16 := by
  apply Lawful.of_unsigned ⟨by decide, by decide⟩ rfl
  · intro word
    exact congrArg Nat.cast word.toNat_toUInt16
  · intro value
    exact congrArg Nat.cast value.toNat_toUInt64.symm
  · intro value
    exact Int.ofNat_lt.mpr value.toNat_lt

theorem lawful_int16 : Lawful Int16 := by
  apply Lawful.of_signed ⟨by decide, by decide⟩ rfl
  · intro word
    exact BitVec.toInt_setWidth word.toBitVec
  · intro value
    exact ⟨value.toInt64, rfl, value.toInt_toInt64⟩
  · intro value
    exact ⟨value.le_toInt, Int.le_sub_one_of_lt value.toInt_lt⟩

theorem lawful_uint32 : Lawful UInt32 := by
  apply Lawful.of_unsigned ⟨by decide, by decide⟩ rfl
  · intro word
    exact congrArg Nat.cast word.toNat_toUInt32
  · intro value
    exact congrArg Nat.cast value.toNat_toUInt64.symm
  · intro value
    exact Int.ofNat_lt.mpr value.toNat_lt

theorem lawful_int32 : Lawful Int32 := by
  apply Lawful.of_signed ⟨by decide, by decide⟩ rfl
  · intro word
    exact BitVec.toInt_setWidth word.toBitVec
  · intro value
    exact ⟨value.toInt64, rfl, value.toInt_toInt64⟩
  · intro value
    exact ⟨value.le_toInt, Int.le_sub_one_of_lt value.toInt_lt⟩

theorem lawful_uint64 : Lawful UInt64 := by
  apply Lawful.of_unsigned ⟨by decide, by decide⟩ rfl
  · intro word
    exact congrArg Nat.cast (Nat.mod_eq_of_lt word.toNat_lt).symm
  · intro value
    rfl
  · intro value
    exact Int.ofNat_lt.mpr value.toNat_lt

theorem lawful_int64 : Lawful Int64 := by
  apply Lawful.of_signed ⟨by decide, by decide⟩ rfl
  · intro word
    exact BitVec.toInt_eq_toNat_bmod word.toBitVec
  · intro value
    exact ⟨value, rfl, rfl⟩
  · intro value
    exact ⟨value.le_toInt, Int.le_sub_one_of_lt value.toInt_lt⟩

/-! ## Runs side by side -/

/-- Two runs fail with the same error, or succeed with related results. -/
inductive SameOutcome {first second : Type}
    (related : first → second → Prop) :
    Except CodecError first → Except CodecError second → Prop
  | ok {result : first} {other : second} (fits : related result other) :
      SameOutcome related (.ok result) (.ok other)
  | error (cause : CodecError) :
      SameOutcome related (.error cause) (.error cause)

/-- A conversion accepts exactly the integers that an enum declares, and keeps
them. -/
structure Accepts {integer enum : Type} [FixedWidth integer]
    (declaration : EnumDecl) (convert : integer → Option enum)
    (discriminant : enum → Int) : Prop where
  declared :
    ∀ value,
      (∃ made, convert value = some made) ↔
        ∃ variant ∈ declaration.variants, variant.2 = toInt value
  keeps :
    ∀ value made, convert value = some made → discriminant made = toInt value

/-- Typed access to integers agrees with running a codec over a placed field that is
stored as the integer. -/
structure AgreesWithFields (integer : Type) [FixedWidth integer] : Prop where
  /-- Every integer lies in the range of the type. -/
  holds : ∀ value : integer, (type integer).Holds (toInt value)
  /-- Reading gives the same integer, and no length is reported. -/
  read :
    ∀ (codec : RecordCodec) (field : PlacedField) (order : ByteOrder)
      (lengths : List Nat),
      field.access.Reaches codec.types order lengths.length
          (.integer (type integer)) →
        ∀ buffer,
          SameOutcome
            (fun result (value : integer) =>
              result.1.integer? = some (toInt value) ∧ result.2 = lengths)
            (codec.readField buffer lengths field)
            (FixedWidth.read integer buffer (field.offset.sum lengths) order)
  /-- Writing a value that holds the integer has the same result, and leaves the same
  buffer. -/
  write :
    ∀ (codec : RecordCodec) (field : PlacedField) (order : ByteOrder)
      (lengths : List Nat),
      field.access.Reaches codec.types order lengths.length
          (.integer (type integer)) →
        ∀ (typed : integer) (value : Value),
          value.integer? = some (toInt typed) →
            codec.writeField lengths field value =
              FixedWidth.write (field.offset.sum lengths) order typed >>=
                fun _ => pure lengths
  /-- Reading an enum gives a variant whose discriminant is converted. -/
  readEnum :
    ∀ (codec : RecordCodec) (field : PlacedField) (order : ByteOrder)
      (lengths : List Nat) (declaration : EnumDecl),
      field.access.Reaches codec.types order lengths.length
          (.enum declaration (type integer)) →
        ∀ (enum : Type) (convert : integer → Option enum)
          (discriminant : enum → Int),
          Accepts declaration convert discriminant →
            ∀ buffer,
              SameOutcome
                (fun result made =>
                  (∃ name,
                    result.1 = .variant name ∧
                      declaration.nameOf? (discriminant made) = some name) ∧
                    result.2 = lengths)
                (codec.readField buffer lengths field)
                (FixedWidth.readEnum convert buffer
                  (field.offset.sum lengths) order declaration.name)
  /-- Reading an enum fails for want of room, or over the integer that is read. -/
  readEnum_fails :
    ∀ (enum : Type) (convert : integer → Option enum) buffer offset order
      typeName cause,
      FixedWidth.readEnum convert buffer offset order typeName =
          .error cause →
        (∃ needed available, cause = .bufferTooSmall needed available) ∨
          ∃ value,
            FixedWidth.read integer buffer offset order = .ok value ∧
              cause = .invalidEnumValue typeName (toInt value)

theorem SameOutcome.bind
    {source first second : Type} {related : first → second → Prop}
    {run : Except CodecError source} {next : source → Except CodecError first}
    {other : source → Except CodecError second}
    (follows :
      ∀ value,
        run = .ok value → SameOutcome related (next value) (other value)) :
    SameOutcome related (run >>= next) (run >>= other) := by
  cases run with
  | error cause => exact .error cause
  | ok value => exact follows value rfl

section SameOutcome

variable {first second : Type} {related : first → second → Prop}
  {other : Except CodecError second}

private theorem SameOutcome.exists_of_ok
    {result : first} (same : SameOutcome related (.ok result) other) :
    ∃ found, other = .ok found ∧ related result found := by
  cases same with
  | ok fits => exact ⟨_, rfl, fits⟩

private theorem SameOutcome.eq_error
    {cause : CodecError} (same : SameOutcome related (.error cause) other) :
    other = .error cause := by
  cases same with
  | error => rfl

end SameOutcome

/-! ## One access -/

section Causes

variable {integer enum : Type} [FixedWidth integer] {buffer : Bytes}
  {offset : Nat} {order : ByteOrder} {cause : CodecError}

private theorem read_cause
    (failed : FixedWidth.read integer buffer offset order = .error cause) :
    ∃ needed available, cause = .bufferTooSmall needed available := by
  rcases bind_eq_error.mp failed with unread | ⟨_, _, absurdly⟩
  · obtain ⟨_, short⟩ := Bytes.readWord_eq_error.mp unread
    exact ⟨_, _, short⟩
  · cases absurdly

private theorem readEnum_cause
    {convert : integer → Option enum} {typeName : String}
    (failed :
      FixedWidth.readEnum convert buffer offset order typeName =
        .error cause) :
    (∃ needed available, cause = .bufferTooSmall needed available) ∨
      ∃ value,
        FixedWidth.read integer buffer offset order = .ok value ∧
          cause = .invalidEnumValue typeName (toInt value) := by
  rcases bind_eq_error.mp failed with unread | ⟨value, read, refused⟩
  · exact Or.inl (read_cause unread)
  · refine Or.inr ⟨value, read, ?_⟩
    split at refused <;> cases refused
    rfl

end Causes

namespace Lawful

variable {integer : Type} [FixedWidth integer] (lawful : Lawful integer)
  {codec : RecordCodec} {field : PlacedField} {order : ByteOrder}
  {lengths : List Nat}
include lawful

/-- A word that was read is narrowed to the integer that it stands for. -/
private theorem toInt_of_readWord
    {buffer : Bytes} {offset : Nat} {word : UInt64}
    (read :
      buffer.readWord offset (type integer).width order = .ok word) :
    toInt (ofWord word : integer) = (type integer).number word := by
  obtain ⟨inside, rfl⟩ := Bytes.readWord_eq_ok.mp read
  apply lawful.toInt_ofWord
  exact IntegerType.word_numberOf_lt lawful.sized order
    (Bytes.length_span inside)

theorem read_agrees
    (reaches :
      field.access.Reaches codec.types order lengths.length
        (.integer (type integer)))
    (buffer : Bytes) :
    SameOutcome
      (fun result (value : integer) =>
        result.1.integer? = some (toInt value) ∧ result.2 = lengths)
      (codec.readField buffer lengths field)
      (FixedWidth.read integer buffer (field.offset.sum lengths) order) := by
  obtain ⟨name, access, offset⟩ := field
  rw [RecordCodec.readField_eq reaches, Storage.decodeAt, bind_assoc]
  apply SameOutcome.bind
  intro word read
  apply SameOutcome.ok
  refine ⟨?_, rfl⟩
  rw [IntegerType.integer?_load, lawful.toInt_of_readWord read]

theorem write_agrees
    (reaches :
      field.access.Reaches codec.types order lengths.length
        (.integer (type integer)))
    {typed : integer} {value : Value}
    (held : value.integer? = some (toInt typed)) :
    codec.writeField lengths field value =
      FixedWidth.write (field.offset.sum lengths) order typed >>= fun _ =>
        pure lengths := by
  obtain ⟨name, access, offset⟩ := field
  have stored :
      RecordCodec.integerWord name (type integer) value =
        .ok (toWord typed) := by
    rw [RecordCodec.integerWord_eq_ok]
    exact ⟨toInt typed, held, lawful.holds typed, (lawful.toWord_eq typed).symm⟩
  have begins :
      (Writer.ofExcept (.ok (toWord typed)) : Writer UInt64) =
        pure (toWord typed) :=
    rfl
  rw [RecordCodec.writeField_eq reaches, Storage.encodeAt, stored, begins,
    pure_bind, bind_assoc]
  rfl

theorem readEnum_agrees
    {declaration : EnumDecl}
    (reaches :
      field.access.Reaches codec.types order lengths.length
        (.enum declaration (type integer)))
    {enum : Type} {convert : integer → Option enum} {discriminant : enum → Int}
    (accepts : Accepts declaration convert discriminant) (buffer : Bytes) :
    SameOutcome
      (fun result made =>
        (∃ name,
          result.1 = .variant name ∧
            declaration.nameOf? (discriminant made) = some name) ∧
          result.2 = lengths)
      (codec.readField buffer lengths field)
      (FixedWidth.readEnum convert buffer (field.offset.sum lengths) order
        declaration.name) := by
  obtain ⟨name, access, offset⟩ := field
  rw [RecordCodec.readField_eq reaches, Storage.decodeAt, bind_assoc,
    FixedWidth.readEnum, FixedWidth.read, bind_assoc]
  apply SameOutcome.bind
  intro word read
  have same := lawful.toInt_of_readWord read
  have declared :=
    (accepts.declared (ofWord word)).trans EnumDecl.exists_nameOf?_iff.symm
  rw [same] at declared
  simp only [RecordCodec.loadVariant, pure_bind]
  -- The conversion refuses the integer exactly when no variant is named by it.
  cases converted : convert (ofWord word) with
  | none =>
      have unnamed :
          declaration.nameOf? ((type integer).number word) = none := by
        rw [Option.eq_none_iff_forall_ne_some]
        intro name named
        obtain ⟨made, accepted⟩ := declared.mpr ⟨name, named⟩
        cases converted.symm.trans accepted
      rw [unnamed]
      show SameOutcome _ (.error _) (.error _)
      rw [same]
      exact .error _
  | some made =>
      obtain ⟨name, named⟩ := declared.mp ⟨made, converted⟩
      have kept := accepts.keeps _ _ converted
      rw [named]
      apply SameOutcome.ok
      refine ⟨⟨name, rfl, ?_⟩, rfl⟩
      rw [kept, same]
      exact named

theorem agreesWithFields : AgreesWithFields integer := by
  refine
    { holds := lawful.holds
      read := ?_
      write := ?_
      readEnum := ?_
      readEnum_fails := ?_ }
  · intro codec field order lengths reaches buffer
    exact lawful.read_agrees reaches buffer
  · intro codec field order lengths reaches typed value held
    exact lawful.write_agrees reaches held
  · intro codec field order lengths declaration reaches enum convert discriminant
      accepts buffer
    exact lawful.readEnum_agrees reaches accepts buffer
  · intro enum convert buffer offset order typeName cause failed
    exact readEnum_cause failed

end Lawful

/-- For each of the eight machine integers, typed access agrees with running a codec. -/
theorem typed_access_agrees :
    AgreesWithFields UInt8 ∧
      AgreesWithFields Int8 ∧
        AgreesWithFields UInt16 ∧
          AgreesWithFields Int16 ∧
            AgreesWithFields UInt32 ∧
              AgreesWithFields Int32 ∧
                AgreesWithFields UInt64 ∧ AgreesWithFields Int64 :=
  ⟨lawful_uint8.agreesWithFields, lawful_int8.agreesWithFields,
    lawful_uint16.agreesWithFields, lawful_int16.agreesWithFields,
    lawful_uint32.agreesWithFields, lawful_int32.agreesWithFields,
    lawful_uint64.agreesWithFields, lawful_int64.agreesWithFields⟩

end FixedWidth

namespace Drawing

/-- The bytes that stand for colours. -/
def colourByte? (value : Int8) : Option Int8 :=
  if value.toInt = -1 ∨ value.toInt = 4 then some value else none

def colourField : PlacedField :=
  { name := "colour"
    access := .enum "Colour" { width := 1, signed := true } .big
    offset := .constant 2 }

theorem accepts_colourByte? :
    FixedWidth.Accepts colour colourByte? Int8.toInt := by
  constructor
  · intro value
    simp only [colourByte?, colour, FixedWidth.toInt, Option.ite_none_right_eq_some,
      List.mem_cons, List.not_mem_nil, or_false, exists_eq_or_imp,
      exists_eq_left, exists_and_left, Option.some.injEq, exists_eq', and_true]
    omega
  · intro value made accepted
    rw [colourByte?, Option.ite_none_right_eq_some] at accepted
    rw [← Option.some.inj accepted.2]
    rfl

end Drawing

/-- A colour that is read as a byte with a sign is that of the variant that is decoded,
and a byte that no variant has is refused alike. -/
theorem FixedWidth.typed_access_agrees_for_colour :
    ∃ codec,
      RecordCodec.compile Drawing.point Drawing.colours {} = .ok codec ∧
        codec.readField [0, 5, 255] [] Drawing.colourField =
            .ok (.variant "red", []) ∧
          (∃ made,
            readEnum Drawing.colourByte? [0, 5, 255] 2 .big "Colour" =
                .ok made ∧
              Drawing.colour.nameOf? made.toInt = some "red") ∧
            readEnum Drawing.colourByte? [0, 5, 3] 2 .big "Colour" =
              .error (.invalidEnumValue "Colour" 3) := by
  obtain ⟨codec, compiled, bound, red, refused⟩ :
      ∃ codec,
        RecordCodec.compile Drawing.point Drawing.colours {} = .ok codec ∧
          codec.types.get? "Colour" = some (.enum Drawing.colour) ∧
            codec.readField [0, 5, 255] [] Drawing.colourField =
                .ok (.variant "red", []) ∧
              codec.readField [0, 5, 3] [] Drawing.colourField =
                .error (.invalidEnumValue "Colour" 3) :=
    ⟨_, rfl, rfl, rfl, rfl⟩
  obtain ⟨_, agrees, _⟩ := typed_access_agrees
  have reaches :
      Drawing.colourField.access.Reaches codec.types .big 0
        (.enum Drawing.colour (type Int8)) :=
    @Access.Reaches.enum codec.types .big 0 Drawing.colour (type Int8) bound
  have same :=
    agrees.readEnum codec Drawing.colourField .big [] Drawing.colour reaches Int8
      Drawing.colourByte? Int8.toInt Drawing.accepts_colourByte?
  refine ⟨codec, compiled, red, ?_, ?_⟩
  · have outcome := same [0, 5, 255]
    rw [red] at outcome
    obtain ⟨made, read, ⟨name, named, converted⟩, _⟩ := outcome.exists_of_ok
    cases named
    exact ⟨made, read, converted⟩
  · have outcome := same [0, 5, 3]
    rw [refused] at outcome
    exact outcome.eq_error

end PackedRecord
