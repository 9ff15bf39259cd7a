import PackedRecord.Proofs.CursorRun
import PackedRecord.Proofs.StoredInteger

/-!
# A plain writer

The writer of this module is what encoding a record means, said without offsets,
without tables of lengths and without demands: it takes the fields of a schema in
order, looks each up in the record, and writes it over the bytes that are left.
Encoding a compiled record succeeds exactly when the plain writer does, and leaves
the same buffer.

A composite may change any byte of what it is handed, also behind the length that
it reports.  The plain writer keeps such changes, since the fields that follow are
written over them.
-/

namespace PackedRecord

/-- The bytes of an integer in two's complement. -/
def IntegerType.bytesOf (type : IntegerType) (order : ByteOrder)
    (integer : Int) : Bytes :=
  order.bytesOf type.width (integer % 2 ^ type.bits).toNat

/-- Writes an integer in the range of its type over the start of the bytes that are
left. -/
def IntegerType.writePlain (type : IntegerType) (order : ByteOrder)
    (integer : Int) (left : Bytes) : Option (Nat × Bytes) :=
  if type.Holds integer ∧ type.width ≤ left.length then
    some (type.width, type.bytesOf order integer ++ left.drop type.width)
  else
    none

/-- The discriminant that a value stands for: that of the named variant, or an
integer that is itself declared. -/
def EnumDecl.discriminantOf? (declaration : EnumDecl) (value : Value) :
    Option Int :=
  match value.text? with
  | some name => declaration.valueOf? name
  | none =>
      value.integer?.filter fun integer =>
        (declaration.nameOf? integer).isSome

/-- Writes a value over the start of the bytes that are left, and gives the room it
takes with the bytes as they are then. -/
def Storage.writePlain (order : ByteOrder) (value : Value) (left : Bytes) :
    Storage → Option (Nat × Bytes)
  | integer type => do
      let integer ← value.integer?
      type.writePlain order integer left
  | enum declaration underlying => do
      let discriminant ← declaration.discriminantOf? value
      underlying.writePlain order discriminant left
  | composite target operation =>
      match target.encode operation value left with
      | .ok written after =>
          if written ≤ left.length then some (written, after) else none
      | .error _ _ => none

/-- Writes the fields of a record one after another from a cursor on, and gives
where the cursor ends with the buffer as it is then. -/
def Field.writePlain (registry : Registry) (variant : Variant)
    (record : Record) : Nat → Bytes → List Field → Option (Nat × Bytes)
  | cursor, buffer, [] => some (cursor, buffer)
  | cursor, buffer, field :: rest => do
      let storage ← field.storage? registry variant
      let value ← record.get? field.name
      let (width, left) ←
        storage.writePlain variant.order value (buffer.drop cursor)
      Field.writePlain registry variant record (cursor + width)
        (buffer.take cursor ++ left) rest

/-- Writes the fields of a record over the start of a buffer, and gives the count of
bytes written with the buffer as it is then. -/
def Schema.writePlain (schema : Schema) (registry : Registry)
    (variant : Variant) (record : Record) (buffer : Bytes) :
    Option (Nat × Bytes) :=
  Field.writePlain registry variant record 0 buffer schema.fields

/-! ## One field -/

/-- Only the low bytes of a number are stored. -/
private theorem ByteOrder.bytesOf_mod (order : ByteOrder) (width number : Nat) :
    order.bytesOf width (number % 256 ^ width) = order.bytesOf width number := by
  have rebuilt := order.bytesOf_numberOf (order.bytesOf width number)
  rw [order.length_bytesOf, order.numberOf_bytesOf] at rebuilt
  exact rebuilt

theorem IntegerType.bytesOf_ofInt
    {type : IntegerType} (sized : type.Sized) (order : ByteOrder)
    (integer : Int) :
    order.bytesOf type.width (UInt64.ofInt integer).toNat =
      type.bytesOf order integer := by
  have residue := toNat_ofInt_mod integer sized.bits_le
  have lowBits :
      (UInt64.ofInt integer).toNat % 256 ^ type.width =
        (integer % 2 ^ type.bits).toNat := by
    rw [pow_width]
    omega
  rw [IntegerType.bytesOf, ← lowBits, order.bytesOf_mod]

section Field

variable {order : ByteOrder} {cursor width : Nat} {buffer after : Bytes}

private theorem IntegerType.writes_iff_writePlain
    {type : IntegerType} (sized : type.Sized) {integer : Int}
    (inside : cursor ≤ buffer.length) :
    type.Writes order integer cursor buffer after ∧ type.width = width ↔
      ∃ left,
        type.writePlain order integer (buffer.drop cursor) =
            some (width, left) ∧
          buffer.take cursor ++ left = after := by
  have sameRoom :
      cursor + type.width ≤ buffer.length ↔
        type.width ≤ (buffer.drop cursor).length := by
    rw [List.length_drop]
    omega
  have overwritten :
      buffer.overwrite cursor (type.bytesOf order integer) =
        buffer.take cursor ++
          (type.bytesOf order integer ++
            (buffer.drop cursor).drop type.width) := by
    rw [Bytes.overwrite, List.append_assoc, List.drop_drop,
      IntegerType.bytesOf, order.length_bytesOf]
  unfold Writes writePlain
  rw [bytesOf_ofInt sized, sameRoom, overwritten]
  by_cases fits :
      type.Holds integer ∧ type.width ≤ (buffer.drop cursor).length
  · rw [if_pos fits]
    constructor
    · rintro ⟨⟨_, _, wrote⟩, rfl⟩
      exact ⟨_, rfl, wrote⟩
    · rintro ⟨left, same, wrote⟩
      cases same
      exact ⟨⟨fits.1, fits.2, wrote⟩, rfl⟩
  · rw [if_neg fits]
    constructor
    · rintro ⟨⟨holds, room, _⟩, _⟩
      exact absurd ⟨holds, room⟩ fits
    · rintro ⟨left, same, _⟩
      cases same

theorem EnumDecl.denotes_iff
    {declaration : EnumDecl} {value : Value} {discriminant : Int} :
    declaration.Denotes value discriminant ↔
      declaration.discriminantOf? value = some discriminant := by
  unfold Denotes discriminantOf?
  rcases value.text_or_integer_none with noText | noInteger
  · rw [noText]
    simp [Option.filter_eq_some_iff]
  · rw [noInteger]
    cases value.text? with
    | none => simp
    | some name => simp

theorem Storage.encodeAt_eq_ok_iff_writePlain
    {storage : Storage} (sized : storage.Sized) {field : String}
    {value : Value} (inside : cursor ≤ buffer.length) :
    storage.encodeAt order field value cursor buffer = .ok width after ↔
      ∃ left,
        storage.writePlain order value (buffer.drop cursor) =
            some (width, left) ∧
          buffer.take cursor ++ left = after := by
  cases storage with
  | integer type =>
      rw [encodeAt_integer_eq_ok, writePlain]
      simp only [IntegerType.writes_iff_writePlain sized inside,
        Option.bind_eq_bind, Option.bind_eq_some_iff]
      constructor
      · rintro ⟨stored, holds, left, wrote, joined⟩
        exact ⟨left, ⟨stored, holds, wrote⟩, joined⟩
      · rintro ⟨left, ⟨stored, holds, wrote⟩, joined⟩
        exact ⟨stored, holds, left, wrote, joined⟩
  | enum declaration underlying =>
      rw [encodeAt_enum_eq_ok, writePlain]
      simp only [IntegerType.writes_iff_writePlain sized inside,
        EnumDecl.denotes_iff, Option.bind_eq_bind, Option.bind_eq_some_iff]
      constructor
      · rintro ⟨stored, denotes, left, wrote, joined⟩
        exact ⟨left, ⟨stored, denotes, wrote⟩, joined⟩
      · rintro ⟨left, ⟨stored, denotes, wrote⟩, joined⟩
        exact ⟨stored, denotes, left, wrote, joined⟩
  | composite target operation =>
      rw [encodeAt, Writer.encodeNested_eq_ok, writePlain]
      cases outcome : target.encode operation value (buffer.drop cursor) with
      | error cause left => simp
      | ok written left =>
          have sameRoom :
              cursor + written ≤ buffer.length ↔
                written ≤ (buffer.drop cursor).length := by
            rw [List.length_drop]
            omega
          by_cases room : written ≤ (buffer.drop cursor).length
          · simp only [room, if_true]
            constructor
            · rintro ⟨_, tail, same, _, joined⟩
              cases same
              exact ⟨left, rfl, joined⟩
            · rintro ⟨tail, same, joined⟩
              cases same
              exact ⟨inside, left, rfl, sameRoom.mpr room, joined⟩
          · simp only [room, if_false]
            constructor
            · rintro ⟨_, tail, same, within, _⟩
              cases same
              exact absurd (sameRoom.mp within) room
            · rintro ⟨tail, same, _⟩
              cases same

end Field

/-! ## All fields -/

section Fields

variable {registry : Registry} {variant : Variant} {record : Record}
  {fields : List Field} {buffer after : Bytes} {cursor stop : Nat}

private theorem Field.writePlain_cons_eq_some {field : Field} :
    Field.writePlain registry variant record cursor buffer (field :: fields) =
        some (stop, after) ↔
      ∃ storage value width left,
        field.storage? registry variant = some storage ∧
          record.get? field.name = some value ∧
          storage.writePlain variant.order value (buffer.drop cursor) =
            some (width, left) ∧
          Field.writePlain registry variant record (cursor + width)
              (buffer.take cursor ++ left) fields =
            some (stop, after) := by
  simp only [Field.writePlain, Option.bind_eq_bind, Option.bind_eq_some_iff,
    Prod.exists]
  constructor
  · rintro ⟨storage, found, value, present, width, left, wrote, walked⟩
    exact ⟨storage, value, width, left, found, present, wrote, walked⟩
  · rintro ⟨storage, value, width, left, found, present, wrote, walked⟩
    exact ⟨storage, found, value, present, width, left, wrote, walked⟩

/-- The cursor over stored fields succeeds exactly when the plain writer does. -/
theorem StoredField.encodeFields_eq_ok_iff_writePlain
    {stored : List StoredField}
    (storedFields : List.Forall₂ (Field.StoredAs registry variant) fields stored)
    (inside : cursor ≤ buffer.length) :
    encodeFields variant.order record cursor stored buffer = .ok stop after ↔
      Field.writePlain registry variant record cursor buffer fields =
        some (stop, after) := by
  induction storedFields generalizing cursor buffer with
  | nil =>
      rw [encodeFields_nil_eq_ok]
      constructor
      · rintro ⟨_, rfl, rfl⟩
        rfl
      · intro plain
        cases plain
        exact ⟨inside, rfl, rfl⟩
  | @cons field made fields stored first _ inductionHypothesis =>
      have sized := first.sized
      rcases first with ⟨sameName, found⟩
      rw [encodeFields_cons_eq_ok, Field.writePlain_cons_eq_some, sameName]
      constructor
      · rintro ⟨_, value, width, between, present, wrote, walked⟩
        have insideNext := (Storage.encodeAt_bounds wrote).1
        have sameLength :=
          (Storage.encodeAt_keepsLength _ _ _ _ _).of_ok wrote
        obtain ⟨left, plain, rfl⟩ :=
          (Storage.encodeAt_eq_ok_iff_writePlain sized inside).mp wrote
        have plainRest :=
          (inductionHypothesis
            (by omega : cursor + width ≤ (buffer.take cursor ++ left).length)).mp
            walked
        exact ⟨_, value, width, left, found, present, plain, plainRest⟩
      · rintro ⟨storage, value, width, left, foundHere, present, plain,
          plainRest⟩
        obtain rfl : made.storage = storage :=
          Option.some.inj (found.symm.trans foundHere)
        have wrote :
            made.storage.encodeAt variant.order field.name value cursor buffer =
              .ok width (buffer.take cursor ++ left) :=
          (Storage.encodeAt_eq_ok_iff_writePlain sized inside).mpr
            ⟨left, plain, rfl⟩
        obtain ⟨insideNext, atLeast⟩ := Storage.encodeAt_bounds wrote
        have sameLength :=
          (Storage.encodeAt_keepsLength _ _ _ _ _).of_ok wrote
        have walked := (inductionHypothesis (by omega)).mpr plainRest
        -- The demands before the first field cover no more than all fields took.
        have taken := encodeFields_bounds walked
        refine ⟨?_, value, width, _, present, wrote, walked⟩
        rw [staticWidth_cons]
        omega

end Fields

/-! ## Compiled records -/

/-- Encoding with a compiled record by the operation of one of its variants succeeds
exactly when the plain writer does, with the same count of bytes and the same
buffer left behind. -/
theorem RecordCodec.encode_eq_ok_iff_writePlain
    {schema : Schema} {registry : Registry} {options : GenerateOptions}
    {codec : RecordCodec} {variants : List Variant} {variant : Variant}
    (compiled : compile schema registry options = .ok codec)
    (directed : schema.variants = .ok variants) (offered : variant ∈ variants)
    (record : Record) (before after : Bytes) (size : Nat) :
    codec.encode variant.operation record before = .ok size after ↔
      schema.writePlain registry variant record before = some (size, after) := by
  have serves := (variant?_eq_some_iff compiled directed).mpr ⟨offered, rfl⟩
  obtain ⟨stored, storedFields, runs⟩ := runsLike_of_compile compiled serves
  rw [runs.encode_eq, Schema.writePlain]
  exact StoredField.encodeFields_eq_ok_iff_writePlain storedFields
    (Nat.zero_le _)

theorem Drawing.encode_line_as_written :
    ∃ codec,
      RecordCodec.compile line points.registry {} = .ok codec ∧
        codec.encode (.ordered .big) greenLine [9, 9, 9, 9, 9, 9, 9] =
          .ok 6 [1, 0xFF, 0xFE, 4, 1, 2, 9] := by
  obtain ⟨codec, compiled⟩ := exists_codec_of_line
  have suffixed : line.variants = .ok [⟨.little, true⟩, ⟨.big, true⟩] := rfl
  have offered :
      (⟨.big, true⟩ : Variant) ∈ [⟨.little, true⟩, ⟨.big, true⟩] := by
    decide
  have written :
      line.writePlain points.registry ⟨.big, true⟩ greenLine
          [9, 9, 9, 9, 9, 9, 9] =
        some (6, [1, 0xFF, 0xFE, 4, 1, 2, 9]) :=
    rfl
  exact ⟨codec, compiled,
    (RecordCodec.encode_eq_ok_iff_writePlain compiled suffixed offered _ _ _
      _).mpr written⟩

end PackedRecord
