import Mathlib.Data.List.Forall2
import PackedRecord.Proofs.Access
import PackedRecord.Proofs.IntegerWord
import PackedRecord.RecordCodec.Decode
import PackedRecord.RecordCodec.Encode

/-!
# Stored fields and the cursor

A field of a record is stored as an integer, as an enum or as a composite.  A
cursor walks over stored fields one after another: each field is read or written
where the cursor stands, and the cursor moves on by the room that the field took.
Before each field the bytes that are known to be needed from there on are
demanded.

Nothing here knows of planned offsets or of tables of lengths.  That procedures
run like the cursor is proved separately.
-/

namespace PackedRecord

/-- How a field is stored, with what its type's name stands for. -/
inductive Storage
  | integer (type : IntegerType)
  | enum (declaration : EnumDecl) (underlying : IntegerType)
  | composite (target : Composite) (operation : Operation)

def Field.storage? (field : Field) (registry : Registry) (variant : Variant) :
    Option Storage :=
  match field.type with
  | .array _ _ => none
  | .primitive scalar => (IntegerType.ofPrimitive? scalar).map .integer
  | .named name =>
      match registry.get? name with
      | some (.enum declaration) =>
          (IntegerType.ofPrimitive? declaration.representation).map
            (.enum declaration)
      | some (.bound _ target) =>
          (target.contract.select variant).map (.composite target)
      | some (.contractOnly _ _) => none
      | none => none

structure StoredField where
  name : String
  storage : Storage

/-- A stored field is how a declared field is stored in a record of the given
variant. -/
def Field.StoredAs (registry : Registry) (variant : Variant) (field : Field)
    (stored : StoredField) : Prop :=
  stored.name = field.name ∧
    field.storage? registry variant = some stored.storage

namespace Storage

/-- The room that the storage is known to take without data. -/
def staticWidth : Storage → Nat
  | integer type => type.width
  | enum _ underlying => underlying.width
  | composite _ _ => 0

/-- Reads a value at a cursor, with the room it takes. -/
def decodeAt (order : ByteOrder) (buffer : Bytes) (cursor : Nat) :
    Storage → Except CodecError (Value × Nat)
  | integer type => do
      let word ← buffer.readWord cursor type.width order
      return (type.load word, type.width)
  | enum declaration underlying => do
      let word ← buffer.readWord cursor underlying.width order
      let value ←
        RecordCodec.loadVariant declaration underlying declaration.name word
      return (value, underlying.width)
  | composite target operation =>
      buffer.decodeNested cursor (target.decode operation)

/-- Writes a value of the named field at a cursor and gives the room it takes. -/
def encodeAt (order : ByteOrder) (field : String) (value : Value)
    (cursor : Nat) : Storage → Writer Nat
  | integer type => do
      let word ← Writer.ofExcept (RecordCodec.integerWord field type value)
      Writer.writeWord cursor type.width order word
      return type.width
  | enum declaration underlying => do
      let word ← Writer.ofExcept do
        let number ←
          RecordCodec.discriminant declaration field declaration.name value
        RecordCodec.checkedWord field underlying number
      Writer.writeWord cursor underlying.width order word
      return underlying.width
  | composite target operation =>
      Writer.encodeNested cursor (target.encode operation value)

end Storage

namespace StoredField

/-- The room that some fields are known to take without data. -/
def staticWidth (fields : List StoredField) : Nat :=
  (fields.map fun field => field.storage.staticWidth).sum

def encodeAt (order : ByteOrder) (record : Record) (cursor : Nat)
    (field : StoredField) : Writer Nat :=
  match record.get? field.name with
  | some value => field.storage.encodeAt order field.name value cursor
  | none => throw (.missingField field.name)

/-- Reads fields from a cursor on, and gives where the cursor ends. -/
def decodeFields (order : ByteOrder) (buffer : Bytes) :
    Nat → List StoredField → Except CodecError (Record × Nat)
  | cursor, [] => do
      Bytes.require buffer.length cursor
      return ([], cursor)
  | cursor, field :: rest => do
      Bytes.require buffer.length (cursor + staticWidth (field :: rest))
      let (value, width) ← field.storage.decodeAt order buffer cursor
      let (entries, stop) ← decodeFields order buffer (cursor + width) rest
      return ((field.name, value) :: entries, stop)

/-- Writes the fields of a record from a cursor on, and gives where the cursor
ends. -/
def encodeFields (order : ByteOrder) (record : Record) :
    Nat → List StoredField → Writer Nat
  | cursor, [] => do
      Writer.require cursor
      return cursor
  | cursor, field :: rest => do
      Writer.require (cursor + staticWidth (field :: rest))
      let width ← field.encodeAt order record cursor
      encodeFields order record (cursor + width) rest

end StoredField

/-! ## Names -/

/-- Where names do not repeat, every entry is the first of its name. -/
theorem Record.get?_of_mem
    {record : Record} (distinct : (record.map Prod.fst).Nodup)
    {entry : String × Value} (member : entry ∈ record) :
    record.get? entry.1 = some entry.2 := by
  induction record with
  | nil => cases member
  | cons first rest inductionHypothesis =>
      obtain ⟨notLater, restDistinct⟩ := List.nodup_cons.mp distinct
      rw [Record.get?]
      rcases List.mem_cons.mp member with rfl | later
      · rw [if_pos rfl]
      · have differs : first.1 ≠ entry.1 := by
          intro same
          apply notLater
          rw [same]
          exact List.mem_map_of_mem later
        rw [if_neg differs]
        exact inductionHypothesis restDistinct later

theorem StoredField.names_of_storedAs
    {registry : Registry} {variant : Variant} {fields : List Field}
    {stored : List StoredField}
    (storedFields :
      List.Forall₂ (Field.StoredAs registry variant) fields stored) :
    stored.map StoredField.name = fields.map Field.name := by
  induction storedFields with
  | nil => rfl
  | cons first _ inductionHypothesis =>
      rw [List.map_cons, List.map_cons, first.1, inductionHypothesis]

/-! ## One field at the cursor -/

namespace Storage

/-- The integers of the storage fit a word. -/
def Sized : Storage → Prop
  | integer type => type.Sized
  | enum _ underlying => underlying.Sized
  | composite _ _ => True

end Storage

theorem Field.StoredAs.sized
    {registry : Registry} {variant : Variant} {field : Field}
    {stored : StoredField} (storedAs : field.StoredAs registry variant stored) :
    stored.storage.Sized := by
  have found := storedAs.2
  unfold Field.storage? at found
  split at found
  · cases found
  · obtain ⟨type, sizedType, same⟩ := Option.map_eq_some_iff.mp found
    rw [← same]
    exact IntegerType.sized_of_ofPrimitive? sizedType
  · split at found
    · obtain ⟨type, sizedType, same⟩ := Option.map_eq_some_iff.mp found
      rw [← same]
      exact IntegerType.sized_of_ofPrimitive? sizedType
    · obtain ⟨operation, _, same⟩ := Option.map_eq_some_iff.mp found
      rw [← same]
      trivial
    · cases found
    · cases found

namespace Storage

variable {order : ByteOrder} {cursor width : Nat} {value : Value}

/-- A field that was read lies in the buffer, and takes at least the room known
without data. -/
theorem decodeAt_bounds
    {buffer : Bytes} {storage : Storage}
    (done : storage.decodeAt order buffer cursor = .ok (value, width)) :
    cursor + width ≤ buffer.length ∧ storage.staticWidth ≤ width := by
  cases storage with
  | integer type =>
      simp only [decodeAt, bind_eq_ok, pure_eq_ok, Prod.mk.injEq,
        Bytes.readWord_eq_ok] at done
      rcases done with ⟨word, ⟨inside, _⟩, _, rfl⟩
      exact ⟨inside, Nat.le_refl _⟩
  | enum declaration underlying =>
      simp only [decodeAt, bind_eq_ok, pure_eq_ok, Prod.mk.injEq,
        Bytes.readWord_eq_ok] at done
      rcases done with ⟨word, ⟨inside, _⟩, _, _, _, rfl⟩
      exact ⟨inside, Nat.le_refl _⟩
  | composite target operation =>
      rw [decodeAt, Bytes.decodeNested_eq_ok] at done
      exact ⟨done.2.2, Nat.zero_le _⟩

theorem encodeAt_keepsLength
    (order : ByteOrder) (field : String) (value : Value) (cursor : Nat)
    (storage : Storage) :
    (storage.encodeAt order field value cursor).KeepsLength := by
  cases storage with
  | integer type =>
      exact .bind (.ofExcept _) fun _ => .bind (.writeWord _ _ _ _) fun _ =>
        .pure _
  | enum declaration underlying =>
      exact .bind (.ofExcept _) fun _ => .bind (.writeWord _ _ _ _) fun _ =>
        .pure _
  | composite target operation =>
      exact .encodeNested _ (target.encode_keepsLength operation value)

/-- A field that was written lies in the buffer, and takes at least the room
known without data. -/
theorem encodeAt_bounds
    {field : String} {before after : Bytes} {storage : Storage}
    (done :
      storage.encodeAt order field value cursor before = .ok width after) :
    cursor + width ≤ before.length ∧ storage.staticWidth ≤ width := by
  cases storage with
  | integer type =>
      simp only [encodeAt, Writer.bind_eq_ok, Writer.pure_eq_ok,
        Writer.ofExcept_eq_ok, Writer.writeWord_eq_ok] at done
      rcases done with ⟨word, _, ⟨_, rfl⟩, _, _, ⟨inside, _⟩, rfl, _⟩
      exact ⟨inside, Nat.le_refl _⟩
  | enum declaration underlying =>
      simp only [encodeAt, Writer.bind_eq_ok, Writer.pure_eq_ok,
        Writer.ofExcept_eq_ok, Writer.writeWord_eq_ok] at done
      rcases done with ⟨word, _, ⟨_, rfl⟩, _, _, ⟨inside, _⟩, rfl, _⟩
      exact ⟨inside, Nat.le_refl _⟩
  | composite target operation =>
      rw [encodeAt, Writer.encodeNested_eq_ok] at done
      rcases done with ⟨_, _, _, inside, _⟩
      exact ⟨inside, Nat.zero_le _⟩

end Storage

/-! ## The cursor over all fields -/

namespace StoredField

@[simp]
theorem staticWidth_nil : staticWidth [] = 0 :=
  rfl

@[simp]
theorem staticWidth_cons (field : StoredField) (rest : List StoredField) :
    staticWidth (field :: rest) =
      field.storage.staticWidth + staticWidth rest := by
  simp [staticWidth]

variable {order : ByteOrder} {cursor stop : Nat}

theorem decodeFields_nil_eq_ok {buffer : Bytes} {entries : Record} :
    decodeFields order buffer cursor [] = .ok (entries, stop) ↔
      cursor ≤ buffer.length ∧ [] = entries ∧ cursor = stop := by
  simp only [decodeFields, bind_eq_ok, pure_eq_ok, Bytes.require_eq_ok,
    exists_const, Prod.mk.injEq]

theorem decodeFields_cons_eq_ok
    {buffer : Bytes} {field : StoredField} {rest : List StoredField}
    {entries : Record} :
    decodeFields order buffer cursor (field :: rest) = .ok (entries, stop) ↔
      cursor + staticWidth (field :: rest) ≤ buffer.length ∧
        ∃ value width others,
          field.storage.decodeAt order buffer cursor = .ok (value, width) ∧
            decodeFields order buffer (cursor + width) rest =
              .ok (others, stop) ∧
            (field.name, value) :: others = entries := by
  simp only [decodeFields, bind_eq_ok, pure_eq_ok, Bytes.require_eq_ok,
    exists_and_left, exists_const, Prod.exists, Prod.mk.injEq,
    and_congr_right_iff]
  intro _
  constructor
  · rintro ⟨value, width, read, others, last, walked, joined, rfl⟩
    exact ⟨value, width, read, others, walked, joined⟩
  · rintro ⟨value, width, read, others, walked, joined⟩
    exact ⟨value, width, read, others, stop, walked, joined, rfl⟩

theorem decodeFields_bounds
    {buffer : Bytes} {fields : List StoredField} {entries : Record}
    (done : decodeFields order buffer cursor fields = .ok (entries, stop)) :
    cursor + staticWidth fields ≤ stop ∧ stop ≤ buffer.length := by
  induction fields generalizing cursor entries with
  | nil =>
      rw [decodeFields_nil_eq_ok] at done
      rcases done with ⟨inside, _, rfl⟩
      exact ⟨Nat.le_refl _, inside⟩
  | cons field rest inductionHypothesis =>
      rw [decodeFields_cons_eq_ok] at done
      rcases done with ⟨_, value, width, others, read, walked, _⟩
      have readBounds := Storage.decodeAt_bounds read
      have walkedBounds := inductionHypothesis walked
      rw [staticWidth_cons]
      omega

theorem names_of_decodeFields
    {buffer : Bytes} {fields : List StoredField} {entries : Record}
    (done : decodeFields order buffer cursor fields = .ok (entries, stop)) :
    entries.map Prod.fst = fields.map StoredField.name := by
  induction fields generalizing cursor entries with
  | nil =>
      rw [decodeFields_nil_eq_ok] at done
      rcases done with ⟨_, rfl, _⟩
      rfl
  | cons field rest inductionHypothesis =>
      rw [decodeFields_cons_eq_ok] at done
      rcases done with ⟨_, value, width, others, _, walked, rfl⟩
      rw [List.map_cons, List.map_cons, inductionHypothesis walked]

theorem encodeAt_eq_ok
    {record : Record} {field : StoredField} {before after : Bytes}
    {width : Nat} :
    field.encodeAt order record cursor before = .ok width after ↔
      ∃ value,
        record.get? field.name = some value ∧
          field.storage.encodeAt order field.name value cursor before =
            .ok width after := by
  unfold encodeAt
  cases found : record.get? field.name with
  | some value => simp
  | none =>
      constructor
      · intro done
        cases done
      · rintro ⟨_, absent, _⟩
        cases absent

theorem encodeFields_nil_eq_ok {record : Record} {before after : Bytes} :
    encodeFields order record cursor [] before = .ok stop after ↔
      cursor ≤ before.length ∧ cursor = stop ∧ before = after := by
  simp only [encodeFields, Writer.bind_eq_ok, Writer.pure_eq_ok,
    Writer.require_eq_ok, exists_const]
  constructor
  · rintro ⟨between, ⟨inside, rfl⟩, ended, kept⟩
    exact ⟨inside, ended, kept⟩
  · rintro ⟨inside, ended, kept⟩
    exact ⟨before, ⟨inside, rfl⟩, ended, kept⟩

theorem encodeFields_cons_eq_ok
    {record : Record} {field : StoredField} {rest : List StoredField}
    {before after : Bytes} :
    encodeFields order record cursor (field :: rest) before =
        .ok stop after ↔
      cursor + staticWidth (field :: rest) ≤ before.length ∧
        ∃ value width between,
          record.get? field.name = some value ∧
            field.storage.encodeAt order field.name value cursor before =
              .ok width between ∧
            encodeFields order record (cursor + width) rest between =
              .ok stop after := by
  simp only [encodeFields, Writer.bind_eq_ok, Writer.require_eq_ok,
    encodeAt_eq_ok, exists_const]
  constructor
  · rintro ⟨_, ⟨inside, rfl⟩, width, between, ⟨value, found, wrote⟩, walked⟩
    exact ⟨inside, value, width, between, found, wrote, walked⟩
  · rintro ⟨inside, value, width, between, found, wrote, walked⟩
    exact ⟨before, ⟨inside, rfl⟩, width, between, ⟨value, found, wrote⟩,
      walked⟩

theorem encodeAt_keepsLength
    (order : ByteOrder) (record : Record) (cursor : Nat)
    (field : StoredField) :
    (field.encodeAt order record cursor).KeepsLength := by
  unfold encodeAt
  cases record.get? field.name with
  | some value => exact Storage.encodeAt_keepsLength _ _ _ _ _
  | none => exact .throw _

theorem encodeFields_bounds
    {record : Record} {before after : Bytes} {fields : List StoredField}
    (done : encodeFields order record cursor fields before = .ok stop after) :
    cursor + staticWidth fields ≤ stop ∧ stop ≤ before.length := by
  induction fields generalizing cursor before with
  | nil =>
      rw [encodeFields_nil_eq_ok] at done
      rcases done with ⟨inside, rfl, _⟩
      exact ⟨Nat.le_refl _, inside⟩
  | cons field rest inductionHypothesis =>
      rw [encodeFields_cons_eq_ok] at done
      rcases done with ⟨_, value, width, between, _, wrote, walked⟩
      have wroteBounds := Storage.encodeAt_bounds wrote
      have sameLength :=
        (Storage.encodeAt_keepsLength _ _ _ _ _).of_ok wrote
      have walkedBounds := inductionHypothesis walked
      rw [staticWidth_cons]
      omega

end StoredField

end PackedRecord
