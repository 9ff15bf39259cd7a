import PackedRecord.Proofs.Agreement
import PackedRecord.Proofs.Storage

/-!
# Integers in a buffer

Integer fields and enum fields are stored alike: an integer stands in the bytes
at the cursor.  This module says what it means to read and to write an integer
there, shows that both undo each other, and brings the two kinds of fields back
to it.
-/

namespace PackedRecord

namespace IntegerType

/-- The bytes of a buffer at a cursor stand for the integer. -/
def Reads (type : IntegerType) (order : ByteOrder) (buffer : Bytes)
    (cursor : Nat) (integer : Int) : Prop :=
  cursor + type.width ≤ buffer.length ∧
    type.denoted (order.numberOf (buffer.span cursor type.width)) = integer

/-- The integer lies in the range of the type, and writing it at a cursor takes
one buffer to another. -/
def Writes (type : IntegerType) (order : ByteOrder) (integer : Int)
    (cursor : Nat) (before after : Bytes) : Prop :=
  type.Holds integer ∧
    cursor + type.width ≤ before.length ∧
      before.overwrite cursor
          (order.bytesOf type.width (UInt64.ofInt integer).toNat) =
        after

section Stored

variable {type : IntegerType} {order : ByteOrder} {cursor : Nat}
  {integer : Int} {buffer before after : Bytes}

theorem number_numberOf
    (sized : type.Sized) (order : ByteOrder) {bytes : Bytes}
    (width : bytes.length = type.width) :
    type.number (UInt64.ofNat (order.numberOf bytes)) =
      type.denoted (order.numberOf bytes) := by
  have small := word_numberOf_lt sized order width
  rw [number_eq_denoted sized _ small, toNat_word_numberOf sized order width]

private theorem reads_iff_readWord (sized : type.Sized) :
    type.Reads order buffer cursor integer ↔
      ∃ word,
        buffer.readWord cursor type.width order = .ok word ∧
          type.number word = integer := by
  simp only [Bytes.readWord_eq_ok]
  constructor
  · intro reads
    rcases reads with ⟨inside, denotes⟩
    refine ⟨_, ⟨inside, rfl⟩, ?_⟩
    rw [number_numberOf sized order (Bytes.length_span inside), denotes]
  · intro found
    rcases found with ⟨_, ⟨inside, rfl⟩, denotes⟩
    refine ⟨inside, ?_⟩
    rw [← denotes, number_numberOf sized order (Bytes.length_span inside)]

theorem Reads.of_agreeOn
    (reads : type.Reads order buffer cursor integer) {other : Bytes}
    (inside : cursor + type.width ≤ other.length)
    (agree : other.AgreeOn buffer cursor (cursor + type.width)) :
    type.Reads order other cursor integer := by
  refine ⟨inside, ?_⟩
  rw [Bytes.agreeOn_iff_span.mp agree]
  exact reads.2

/-- A stored integer lies in the range of its type. -/
theorem Reads.holds
    (sized : type.Sized) (reads : type.Reads order buffer cursor integer) :
    type.Holds integer := by
  rcases reads with ⟨inside, denotes⟩
  have width := Bytes.length_span inside
  have small := word_numberOf_lt sized order width
  rw [← denotes, ← number_numberOf sized order width]
  exact holds_number sized _ small

theorem Writes.sameOutside
    (writes : type.Writes order integer cursor before after) :
    before.SameOutside after cursor (cursor + type.width) := by
  rcases writes with ⟨_, inside, rfl⟩
  have written :=
    order.length_bytesOf type.width (UInt64.ofInt integer).toNat
  exact Bytes.sameOutside_overwrite written inside

/-- What was written is read again, also in other surroundings. -/
theorem Writes.reads
    (sized : type.Sized)
    (writes : type.Writes order integer cursor before after)
    (inside : cursor + type.width ≤ buffer.length)
    (agree : buffer.AgreeOn after cursor (cursor + type.width)) :
    type.Reads order buffer cursor integer := by
  rcases writes with ⟨holds, room, rfl⟩
  have written :=
    order.length_bytesOf type.width (UInt64.ofInt integer).toNat
  refine ⟨inside, ?_⟩
  rw [Bytes.agreeOn_iff_span.mp agree, Bytes.span_overwrite written room,
    ← number_numberOf sized order written]
  exact number_bytesOf sized order holds

/-- Writing what was read reproduces the bytes, whatever they overwrite. -/
theorem Reads.exists_writes
    (sized : type.Sized) (reads : type.Reads order buffer cursor integer)
    (room : cursor + type.width ≤ before.length) :
    ∃ after,
      type.Writes order integer cursor before after ∧
        after.AgreeOn buffer cursor (cursor + type.width) := by
  have holds := reads.holds sized
  rcases reads with ⟨inside, denotes⟩
  have width := Bytes.length_span inside
  refine ⟨_, ⟨holds, room, rfl⟩, ?_⟩
  rw [← denotes, ← number_numberOf sized order width,
    bytesOf_number sized order width, Bytes.agreeOn_iff_span]
  exact Bytes.span_overwrite width room

end Stored

end IntegerType

/-! ## Integer fields and enum fields -/

theorem Value.text_or_integer_none (value : Value) :
    value.text? = none ∨ value.integer? = none := by
  cases value with
  | variant name => exact Or.inr rfl
  | text content => exact Or.inr rfl
  | _ => exact Or.inl rfl

/-- The value stands for a discriminant of the enum: by the name of a declared
variant, or as a declared discriminant itself. -/
def EnumDecl.Denotes (declaration : EnumDecl) (value : Value)
    (discriminant : Int) : Prop :=
  (∃ text,
      value.text? = some text ∧
        declaration.valueOf? text = some discriminant) ∨
    value.integer? = some discriminant ∧
      (declaration.nameOf? discriminant).isSome = true

namespace EnumDecl.Denotes

variable {declaration : EnumDecl} {value : Value} {discriminant other : Int}

theorem unique
    (denotes : declaration.Denotes value discriminant)
    (denotesOther : declaration.Denotes value other) :
    discriminant = other := by
  rcases denotes with ⟨text, spelled, found⟩ | ⟨held, _⟩
  · rcases denotesOther with ⟨textOther, spelledOther, foundOther⟩ | ⟨held, _⟩
    · rw [spelled] at spelledOther
      cases spelledOther
      exact Option.some.inj (found.symm.trans foundOther)
    · rcases value.text_or_integer_none with noText | noInteger
      · cases noText.symm.trans spelled
      · cases noInteger.symm.trans held
  · rcases denotesOther with ⟨text, spelled, _⟩ | ⟨heldOther, _⟩
    · rcases value.text_or_integer_none with noText | noInteger
      · cases noText.symm.trans spelled
      · cases noInteger.symm.trans held
    · exact Option.some.inj (held.symm.trans heldOther)

theorem declared (denotes : declaration.Denotes value discriminant) :
    ∃ name, declaration.nameOf? discriminant = some name := by
  rcases denotes with ⟨text, _, found⟩ | ⟨_, isDeclared⟩
  · obtain ⟨entry, entryFound, same⟩ := Option.map_eq_some_iff.mp found
    have member := List.mem_of_find?_eq_some entryFound
    have isFound :
        (declaration.variants.find? fun variant =>
          variant.2 == discriminant).isSome = true := by
      rw [List.find?_isSome]
      exact ⟨entry, member, by simp [same]⟩
    obtain ⟨first, firstFound⟩ := Option.isSome_iff_exists.mp isFound
    exact ⟨first.1, by rw [nameOf?, firstFound]; rfl⟩
  · exact Option.isSome_iff_exists.mp isDeclared

end EnumDecl.Denotes

namespace RecordCodec

theorem checkedWord_eq_ok
    {field : String} {type : IntegerType} {integer : Int} {word : UInt64} :
    checkedWord field type integer = .ok word ↔
      type.Holds integer ∧ UInt64.ofInt integer = word := by
  unfold checkedWord IntegerType.store?
  by_cases holds : type.Holds integer
  · simp [holds]
  · simp [holds]

theorem integerWord_eq_ok
    {field : String} {type : IntegerType} {value : Value} {word : UInt64} :
    integerWord field type value = .ok word ↔
      ∃ integer,
        value.integer? = some integer ∧
          type.Holds integer ∧ UInt64.ofInt integer = word := by
  unfold integerWord
  cases value.integer? with
  | none => simp
  | some integer => simp [checkedWord_eq_ok]

theorem discriminant_eq_ok
    {declaration : EnumDecl} {field typeName : String} {value : Value}
    {number : Int} :
    discriminant declaration field typeName value = .ok number ↔
      declaration.Denotes value number := by
  unfold discriminant EnumDecl.Denotes
  rcases value.text_or_integer_none with noText | noInteger
  · rw [noText]
    cases value.integer? with
    | none => simp
    | some integer =>
        by_cases declared : (declaration.nameOf? integer).isSome = true
        · simp only [declared, if_true, Except.ok.injEq, reduceCtorEq,
            false_and, exists_const, Option.some.injEq, false_or]
          constructor
          · intro same
            rw [← same]
            exact ⟨rfl, declared⟩
          · exact And.left
        · simp only [declared, reduceCtorEq, false_and, exists_const,
            Option.some.injEq, false_or, false_iff, not_and, if_false]
          intro same
          rw [← same]
          exact declared
  · rw [noInteger]
    cases value.text? with
    | none => simp
    | some text =>
        cases found : declaration.valueOf? text with
        | none => simp [found]
        | some value => simp [found]

end RecordCodec

namespace Storage

variable {order : ByteOrder} {cursor width : Nat} {value : Value}
  {type underlying : IntegerType} {declaration : EnumDecl}

theorem decodeAt_integer_eq_ok (sized : type.Sized) {buffer : Bytes} :
    (integer type).decodeAt order buffer cursor = .ok (value, width) ↔
      ∃ stored,
        type.Reads order buffer cursor stored ∧
          type.valueOf stored = value ∧ type.width = width := by
  simp only [decodeAt, bind_eq_ok, pure_eq_ok, Prod.mk.injEq,
    IntegerType.reads_iff_readWord sized, IntegerType.load_eq_valueOf]
  constructor
  · intro done
    rcases done with ⟨word, read, loaded, taken⟩
    exact ⟨_, ⟨word, read, rfl⟩, loaded, taken⟩
  · intro done
    rcases done with ⟨_, ⟨word, read, rfl⟩, loaded, taken⟩
    exact ⟨word, read, loaded, taken⟩

theorem decodeAt_enum_eq_ok (sized : underlying.Sized) {buffer : Bytes} :
    (enum declaration underlying).decodeAt order buffer cursor =
        .ok (value, width) ↔
      ∃ stored name,
        underlying.Reads order buffer cursor stored ∧
          declaration.nameOf? stored = some name ∧
            .variant name = value ∧ underlying.width = width := by
  simp only [decodeAt, bind_eq_ok, pure_eq_ok, Prod.mk.injEq,
    IntegerType.reads_iff_readWord sized, RecordCodec.loadVariant]
  constructor
  · intro done
    rcases done with ⟨word, read, loaded, names, rfl, taken⟩
    cases named : declaration.nameOf? (underlying.number word) with
    | none =>
        rw [named] at names
        cases names
    | some name =>
        rw [named] at names
        cases names
        exact ⟨_, name, ⟨word, read, rfl⟩, named, rfl, taken⟩
  · intro done
    rcases done with ⟨_, name, ⟨word, read, rfl⟩, named, same, taken⟩
    refine ⟨word, read, .variant name, ?_, same, taken⟩
    rw [named]

theorem encodeAt_integer_eq_ok {field : String} {before after : Bytes} :
    (integer type).encodeAt order field value cursor before =
        .ok width after ↔
      ∃ stored,
        value.integer? = some stored ∧
          type.Writes order stored cursor before after ∧
            type.width = width := by
  simp only [encodeAt, Writer.bind_eq_ok, Writer.pure_eq_ok,
    Writer.ofExcept_eq_ok, Writer.writeWord_eq_ok, exists_const,
    RecordCodec.integerWord_eq_ok, IntegerType.Writes]
  constructor
  · intro done
    obtain ⟨_, _, ⟨⟨stored, holds, inRange, rfl⟩, rfl⟩, _, ⟨room, wrote⟩, taken,
      rfl⟩ := done
    exact ⟨stored, holds, ⟨inRange, room, wrote⟩, taken⟩
  · intro done
    rcases done with ⟨stored, holds, ⟨inRange, room, wrote⟩, taken⟩
    exact ⟨_, before, ⟨⟨stored, holds, inRange, rfl⟩, rfl⟩, after,
      ⟨room, wrote⟩, taken, rfl⟩

theorem encodeAt_enum_eq_ok {field : String} {before after : Bytes} :
    (enum declaration underlying).encodeAt order field value cursor before =
        .ok width after ↔
      ∃ stored,
        declaration.Denotes value stored ∧
          underlying.Writes order stored cursor before after ∧
            underlying.width = width := by
  simp only [encodeAt, Writer.bind_eq_ok, Writer.pure_eq_ok,
    Writer.ofExcept_eq_ok, Writer.writeWord_eq_ok, exists_const, bind_eq_ok,
    RecordCodec.checkedWord_eq_ok, RecordCodec.discriminant_eq_ok,
    IntegerType.Writes]
  constructor
  · intro done
    obtain ⟨_, _, ⟨⟨stored, denotes, inRange, rfl⟩, rfl⟩, _, ⟨room, wrote⟩,
      taken, rfl⟩ := done
    exact ⟨stored, denotes, ⟨inRange, room, wrote⟩, taken⟩
  · intro done
    rcases done with ⟨stored, denotes, ⟨inRange, room, wrote⟩, taken⟩
    exact ⟨_, before, ⟨⟨stored, denotes, inRange, rfl⟩, rfl⟩, after,
      ⟨room, wrote⟩, taken, rfl⟩

end Storage

end PackedRecord
