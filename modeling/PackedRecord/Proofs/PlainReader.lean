import PackedRecord.Proofs.CursorRun
import PackedRecord.Proofs.StoredInteger

/-!
# A plain reader

The reader of this module is what decoding a record means, said without offsets,
without tables of lengths and without demands: it takes the fields of a schema in
order and reads each from the bytes that are left.  Decoding a compiled record
succeeds exactly when the plain reader does, and gives the values that it reads.

Decoding demands bytes before it comes to the fields that need them.  That no
demand refuses what the reader would accept is seen from behind: a reader that
reached its end has taken at least the room known for the fields it read.
-/

namespace PackedRecord

namespace Storage

/-- Reads a value from the start of the bytes that are left, with the room it
takes. -/
def readPlain (order : ByteOrder) (left : Bytes) :
    Storage → Option (Value × Nat)
  | integer type =>
      if type.width ≤ left.length then
        let number := order.numberOf (left.take type.width)
        some (type.valueOf (type.denoted number), type.width)
      else
        none
  | enum declaration underlying =>
      if underlying.width ≤ left.length then
        let number := order.numberOf (left.take underlying.width)
        (declaration.nameOf? (underlying.denoted number)).map fun name =>
          (.variant name, underlying.width)
      else
        none
  | composite target operation =>
      match target.decode operation left with
      | .ok (value, consumed) =>
          if consumed ≤ left.length then some (value, consumed) else none
      | .error _ => none

end Storage

/-- Reads the values of fields one after another from a cursor on, and gives
where the cursor ends. -/
def Field.readPlain (registry : Registry) (variant : Variant)
    (buffer : Bytes) : Nat → List Field → Option (List Value × Nat)
  | cursor, [] => some ([], cursor)
  | cursor, field :: rest => do
      let storage ← field.storage? registry variant
      let (value, width) ←
        storage.readPlain variant.order (buffer.drop cursor)
      let (values, stop) ←
        Field.readPlain registry variant buffer (cursor + width) rest
      return (value :: values, stop)

/-- Reads the values of a record's fields from the start of a buffer, with the
count of bytes read. -/
def Schema.readPlain (schema : Schema) (registry : Registry)
    (variant : Variant) (buffer : Bytes) : Option (List Value × Nat) :=
  Field.readPlain registry variant buffer 0 schema.fields

/-! ## One field -/

/-- Whether the bytes at a cursor stand for an integer is seen from the bytes
that are left there. -/
private theorem IntegerType.reads_iff_left
    {type : IntegerType} {order : ByteOrder} {buffer : Bytes} {cursor : Nat}
    (inside : cursor ≤ buffer.length) {integer : Int} :
    type.Reads order buffer cursor integer ↔
      type.width ≤ (buffer.drop cursor).length ∧
        type.denoted
            (order.numberOf ((buffer.drop cursor).take type.width)) =
          integer := by
  have sameRoom :
      cursor + type.width ≤ buffer.length ↔
        type.width ≤ (buffer.drop cursor).length := by
    rw [List.length_drop]
    omega
  unfold Reads
  rw [sameRoom, Bytes.span]

theorem Storage.decodeAt_eq_ok_iff_readPlain
    {storage : Storage} (sized : storage.Sized) {order : ByteOrder}
    {buffer : Bytes} {cursor width : Nat} {value : Value}
    (inside : cursor ≤ buffer.length) :
    storage.decodeAt order buffer cursor = .ok (value, width) ↔
      storage.readPlain order (buffer.drop cursor) = some (value, width) := by
  cases storage with
  | integer type =>
      rw [decodeAt_integer_eq_ok sized, readPlain]
      simp [IntegerType.reads_iff_left inside]
  | enum declaration underlying =>
      rw [decodeAt_enum_eq_ok sized, readPlain]
      simp [IntegerType.reads_iff_left inside, and_assoc]
  | composite target operation =>
      rw [decodeAt, Bytes.decodeNested_eq_ok, readPlain]
      cases outcome : target.decode operation (buffer.drop cursor) with
      | error cause => simp
      | ok found =>
          rcases found with ⟨decoded, consumed⟩
          by_cases room : consumed ≤ (buffer.drop cursor).length
          · simp only [room, if_true, Except.ok.injEq, Prod.mk.injEq,
              Option.some.injEq]
            rw [List.length_drop] at room
            constructor
            · intro done
              exact done.2.1
            · intro same
              rcases same with ⟨rfl, rfl⟩
              exact ⟨inside, ⟨rfl, rfl⟩, by omega⟩
          · simp only [room, if_false, reduceCtorEq, iff_false]
            intro done
            rcases done with ⟨_, same, within⟩
            cases same
            rw [List.length_drop] at room
            omega

/-! ## All fields -/

section Fields

variable {registry : Registry} {variant : Variant} {fields : List Field}
  {buffer : Bytes} {cursor stop : Nat} {values : List Value}

private theorem Field.readPlain_cons_eq_some {field : Field} :
    Field.readPlain registry variant buffer cursor (field :: fields) =
        some (values, stop) ↔
      ∃ storage value width others,
        field.storage? registry variant = some storage ∧
          storage.readPlain variant.order (buffer.drop cursor) =
            some (value, width) ∧
          Field.readPlain registry variant buffer (cursor + width) fields =
            some (others, stop) ∧
          value :: others = values := by
  simp only [Field.readPlain, Option.bind_eq_bind, Option.bind_eq_some_iff,
    Option.pure_def, Option.some.injEq, Prod.exists, Prod.mk.injEq]
  constructor
  · rintro ⟨storage, found, value, width, read, others, _, walked, joined, rfl⟩
    exact ⟨storage, value, width, others, found, read, walked, joined⟩
  · rintro ⟨storage, value, width, others, found, read, walked, joined⟩
    exact ⟨storage, found, value, width, read, others, stop, walked, joined,
      rfl⟩

private theorem Field.length_of_readPlain
    (plain :
      Field.readPlain registry variant buffer cursor fields =
        some (values, stop)) :
    values.length = fields.length := by
  induction fields generalizing cursor values with
  | nil =>
      cases plain
      rfl
  | cons field rest inductionHypothesis =>
      rw [Field.readPlain_cons_eq_some] at plain
      rcases plain with ⟨_, _, _, others, _, _, walked, rfl⟩
      simp [inductionHypothesis walked]

/-- The cursor over stored fields succeeds exactly when the plain reader does. -/
theorem StoredField.decodeFields_eq_ok_iff_readPlain
    {stored : List StoredField}
    (storedFields : List.Forall₂ (Field.StoredAs registry variant) fields stored)
    (inside : cursor ≤ buffer.length) {record : Record} :
    decodeFields variant.order buffer cursor stored = .ok (record, stop) ↔
      ∃ values,
        Field.readPlain registry variant buffer cursor fields =
            some (values, stop) ∧
          (fields.map Field.name).zip values = record := by
  induction storedFields generalizing cursor record with
  | nil =>
      rw [decodeFields_nil_eq_ok]
      constructor
      · rintro ⟨_, rfl, rfl⟩
        exact ⟨[], rfl, rfl⟩
      · rintro ⟨values, plain, rfl⟩
        cases plain
        exact ⟨inside, rfl, rfl⟩
  | @cons field made fields stored first _ inductionHypothesis =>
      have sized := first.sized
      rcases first with ⟨sameName, found⟩
      rw [decodeFields_cons_eq_ok]
      constructor
      · rintro ⟨_, value, width, others, read, walked, rfl⟩
        have insideNext := (Storage.decodeAt_bounds read).1
        obtain ⟨rest, plainRest, rfl⟩ :=
          (inductionHypothesis insideNext).mp walked
        refine ⟨value :: rest, ?_, by rw [sameName]; rfl⟩
        rw [Field.readPlain_cons_eq_some]
        exact ⟨_, value, width, rest, found,
          (Storage.decodeAt_eq_ok_iff_readPlain sized inside).mp read,
          plainRest, rfl⟩
      · rintro ⟨values, plain, rfl⟩
        rw [Field.readPlain_cons_eq_some] at plain
        obtain ⟨storage, value, width, rest, foundHere, plainFirst, plainRest,
          rfl⟩ := plain
        obtain rfl : made.storage = storage :=
          Option.some.inj (found.symm.trans foundHere)
        have read :=
          (Storage.decodeAt_eq_ok_iff_readPlain sized inside).mpr plainFirst
        obtain ⟨insideNext, atLeast⟩ := Storage.decodeAt_bounds read
        have walked :=
          (inductionHypothesis insideNext).mpr ⟨rest, plainRest, rfl⟩
        -- What was demanded for the fields is not more than they took.
        have taken := decodeFields_bounds walked
        refine ⟨?_, value, width, _, read, walked, by rw [sameName]; rfl⟩
        rw [staticWidth_cons]
        omega

end Fields

/-! ## Compiled records -/

/-- Decoding a compiled record by the operation of one of its variants succeeds
exactly when the plain reader does, with the same values and the same count of
bytes.  The decoded record has one entry for each field of the schema, which holds
the value read for that field. -/
theorem RecordCodec.decode_eq_ok_iff_readPlain
    {schema : Schema} {registry : Registry} {options : GenerateOptions}
    {codec : RecordCodec} {variants : List Variant} {variant : Variant}
    (compiled : compile schema registry options = .ok codec)
    (directed : schema.variants = .ok variants) (offered : variant ∈ variants)
    (buffer : Bytes) (record : Record) (size : Nat) :
    (codec.decode variant.operation buffer = .ok (record, size) ↔
      ∃ values,
        schema.readPlain registry variant buffer = some (values, size) ∧
          (schema.fields.map Field.name).zip values = record) ∧
      ∀ values,
        schema.readPlain registry variant buffer = some (values, size) →
          (schema.fields.map Field.name).zip values = record →
            (schema.fields.map Field.name).Nodup ∧
              record.map Prod.fst = schema.fields.map Field.name ∧
              record.map Prod.snd = values ∧
              ∀ (index : Nat) (field : Field) (value : Value),
                schema.fields[index]? = some field →
                  values[index]? = some value →
                    record.get? field.name = some value := by
  have serves := (variant?_eq_some_iff compiled directed).mpr ⟨offered, rfl⟩
  obtain ⟨stored, storedFields, runs⟩ := runsLike_of_compile compiled serves
  have distinct := nodup_names_of_compile compiled
  constructor
  · rw [runs.decode_eq]
    exact StoredField.decodeFields_eq_ok_iff_readPlain storedFields
      (Nat.zero_le _)
  · rintro values plain rfl
    have sameLength := Field.length_of_readPlain plain
    refine ⟨distinct, ?_, ?_, ?_⟩
    · exact List.map_fst_zip (by simp [sameLength])
    · exact List.map_snd_zip (by simp [sameLength])
    · intro index field value declared holds
      have names :
          ((schema.fields.map Field.name).zip values).map Prod.fst =
            schema.fields.map Field.name :=
        List.map_fst_zip (by simp [sameLength])
      have member :
          (field.name, value) ∈ (schema.fields.map Field.name).zip values := by
        apply List.mem_of_getElem?
        rw [List.getElem?_zip_eq_some]
        exact ⟨by rw [List.getElem?_map, declared]; rfl, holds⟩
      rw [← names] at distinct
      exact Record.get?_of_mem distinct member

theorem Drawing.decode_line_as_read :
    ∃ codec,
      RecordCodec.compile line points.registry {} = .ok codec ∧
        codec.decode (.ordered .big) [1, 0xFF, 0xFE, 4, 1, 2, 9] =
          .ok
            ([("dashed", .unsigned 1),
                ("start",
                  .record [("x", .signed (-2)), ("colour", .variant "green")]),
                ("length", .unsigned 258)],
              6) := by
  obtain ⟨codec, compiled⟩ :
      ∃ codec, RecordCodec.compile line points.registry {} = .ok codec :=
    ⟨_, rfl⟩
  have suffixed : line.variants = .ok [⟨.little, true⟩, ⟨.big, true⟩] := rfl
  have offered :
      (⟨.big, true⟩ : Variant) ∈ [⟨.little, true⟩, ⟨.big, true⟩] := by
    decide
  have reads :=
    RecordCodec.decode_eq_ok_iff_readPlain compiled suffixed offered
      [1, 0xFF, 0xFE, 4, 1, 2, 9]
  exact ⟨codec, compiled, (reads _ _).1.mpr ⟨_, rfl, rfl⟩⟩

end PackedRecord
