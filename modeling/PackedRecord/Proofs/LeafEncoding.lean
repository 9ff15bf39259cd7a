import PackedRecord.Proofs.PlainWriter
import PackedRecord.Proofs.Shape

/-!
# Encodings of leaves

What a record is stored as is the bytes of its leaves, one behind the other.  This
module says what the bytes of a leaf are, finds its value inside of nested records,
and shows that the cursor writes just these bytes where it stands, or refuses the
value and writes nothing.
-/

namespace PackedRecord

/-! ## Values of leaves -/

/-- The integer that a value is stored as: in an enum field, the discriminant that
it stands for. -/
def Value.integerIn? (value : Value) : Option EnumDecl → Option Int
  | none => value.integer?
  | some declaration => declaration.discriminantOf? value

/-- The word of an integer or of an enum, or why the value has none. -/
def Value.word (value : Value) (field : String) (type : IntegerType) :
    Option EnumDecl → Except CodecError UInt64
  | none => RecordCodec.integerWord field type value
  | some declaration => do
      let number ←
        RecordCodec.discriminant declaration field declaration.name value
      RecordCodec.checkedWord field type number

theorem Value.word_eq_ok
    {value : Value} {field : String} {type : IntegerType}
    {enum? : Option EnumDecl} {word : UInt64} :
    value.word field type enum? = .ok word ↔
      ∃ integer,
        value.integerIn? enum? = some integer ∧
          type.Holds integer ∧ UInt64.ofInt integer = word := by
  cases enum? with
  | none =>
      simp only [Value.word, RecordCodec.integerWord_eq_ok, Value.integerIn?]
  | some declaration =>
      simp only [Value.word, bind_eq_ok, RecordCodec.discriminant_eq_ok,
        RecordCodec.checkedWord_eq_ok, EnumDecl.denotes_iff, Value.integerIn?]

namespace Record

def integerIn? (record : Record) (field : String) (enum? : Option EnumDecl) :
    Option Int :=
  (record.get? field).bind fun value => value.integerIn? enum?

def recordIn? (record : Record) (field : String) : Option Record :=
  (record.get? field).bind Value.record?

/-- The record that some nested fields lead to. -/
def inside? (record : Record) : List String → Option Record
  | [] => some record
  | field :: deeper =>
      (record.recordIn? field).bind fun entries => inside? entries deeper

def word (record : Record) (field : String) (type : IntegerType)
    (enum? : Option EnumDecl) : Except CodecError UInt64 :=
  match record.get? field with
  | some value => value.word field type enum?
  | none => .error (.missingField field)

/-- The record in a field whose type has the given name, or why there is none. -/
def entries (record : Record) (field typeName : String) :
    Except CodecError Record :=
  match record.get? field with
  | none => .error (.missingField field)
  | some value =>
      match value.record? with
      | some entries => .ok entries
      | none => .error (.typeMismatch typeName "a record")

theorem word_eq_ok
    {record : Record} {field : String} {type : IntegerType}
    {enum? : Option EnumDecl} {word : UInt64} :
    record.word field type enum? = .ok word ↔
      ∃ integer,
        record.integerIn? field enum? = some integer ∧
          type.Holds integer ∧ UInt64.ofInt integer = word := by
  unfold Record.word integerIn?
  cases record.get? field with
  | none => simp
  | some value => simp only [Value.word_eq_ok, Option.bind_some]

theorem entries_eq_ok
    {record found : Record} {field typeName : String} :
    record.entries field typeName = .ok found ↔
      record.recordIn? field = some found := by
  unfold entries recordIn?
  cases record.get? field with
  | none => simp
  | some value =>
      cases held : value.record? with
      | none => simp [held]
      | some entries => simp [held]

end Record

/-! ## Bytes of leaves -/

namespace Leaf

/-- The bytes of the leaf in a record, if its value can be stored. -/
def bytes? (record : Record) (leaf : Leaf) : Option Bytes := do
  let entries ← record.inside? leaf.inside
  let integer ← entries.integerIn? leaf.field leaf.enum?
  if leaf.type.Holds integer then
    some (leaf.type.bytesOf leaf.order integer)
  else
    none

/-- The bytes of leaves, one behind the other. -/
def encoding? (record : Record) : List Leaf → Option Bytes
  | [] => some []
  | leaf :: rest => do
      let bytes ← leaf.bytes? record
      let others ← encoding? record rest
      return bytes ++ others

theorem bytes?_of_integer
    (order : ByteOrder) {record : Record} {field : String} {type : IntegerType}
    {enum? : Option EnumDecl} {integer : Int}
    (held : record.integerIn? field enum? = some integer)
    (holds : type.Holds integer) :
    bytes? record { inside := [], field, order, type, enum? } =
      some (type.bytesOf order integer) := by
  simp [bytes?, Record.inside?, held, holds]

theorem length_bytes?
    {record : Record} {leaf : Leaf} {bytes : Bytes}
    (encoded : leaf.bytes? record = some bytes) :
    bytes.length = leaf.width := by
  simp only [bytes?, Option.bind_eq_bind, Option.bind_eq_some_iff,
    Option.ite_none_right_eq_some] at encoded
  obtain ⟨_, _, integer, _, _, same⟩ := encoded
  cases same
  exact leaf.order.length_bytesOf _ _

theorem encoding?_cons_eq_some
    {record : Record} {leaf : Leaf} {rest : List Leaf} {bytes : Bytes} :
    encoding? record (leaf :: rest) = some bytes ↔
      ∃ first others,
        leaf.bytes? record = some first ∧
          encoding? record rest = some others ∧ first ++ others = bytes := by
  simp [encoding?, Option.bind_eq_some_iff]

@[simp]
theorem encoding?_singleton (record : Record) (leaf : Leaf) :
    encoding? record [leaf] = leaf.bytes? record := by
  simp [encoding?]

theorem length_encoding?
    {record : Record} {leaves : List Leaf} {bytes : Bytes}
    (encoded : encoding? record leaves = some bytes) :
    bytes.length = widths leaves := by
  induction leaves generalizing bytes with
  | nil =>
      cases encoded
      simp
  | cons leaf rest inductionHypothesis =>
      obtain ⟨first, others, firstEncoded, othersEncoded, same⟩ :=
        encoding?_cons_eq_some.mp encoded
      rw [← same, List.length_append, widths_cons,
        length_bytes? firstEncoded, inductionHypothesis othersEncoded]

theorem encoding?_append
    {record : Record} {first second : List Leaf} {front back : Bytes}
    (firstEncoded : encoding? record first = some front)
    (secondEncoded : encoding? record second = some back) :
    encoding? record (first ++ second) = some (front ++ back) := by
  induction first generalizing front with
  | nil =>
      cases firstEncoded
      exact secondEncoded
  | cons leaf rest inductionHypothesis =>
      obtain ⟨bytes, others, leafEncoded, restEncoded, same⟩ :=
        encoding?_cons_eq_some.mp firstEncoded
      have joined := inductionHypothesis restEncoded
      rw [List.cons_append, encoding?_cons_eq_some]
      exact ⟨bytes, others ++ back, leafEncoded, joined, by
        rw [← List.append_assoc, same]⟩

theorem encoding?_append_eq_some
    {record : Record} {first second : List Leaf} {bytes : Bytes} :
    encoding? record (first ++ second) = some bytes ↔
      ∃ front back,
        encoding? record first = some front ∧
          encoding? record second = some back ∧ front ++ back = bytes := by
  constructor
  · intro encoded
    induction first generalizing bytes with
    | nil => exact ⟨[], bytes, rfl, encoded, rfl⟩
    | cons leaf rest inductionHypothesis =>
        obtain ⟨start, others, leafEncoded, restEncoded, same⟩ :=
          encoding?_cons_eq_some.mp encoded
        obtain ⟨front, back, frontEncoded, backEncoded, joined⟩ :=
          inductionHypothesis restEncoded
        refine ⟨start ++ front, back, ?_, backEncoded, ?_⟩
        · exact encoding?_cons_eq_some.mpr
            ⟨start, front, leafEncoded, frontEncoded, rfl⟩
        · rw [List.append_assoc, joined, same]
  · rintro ⟨front, back, frontEncoded, backEncoded, rfl⟩
    exact encoding?_append frontEncoded backEncoded

/-- Where the room of the first leaves is known, the bytes behind it are those of the
others. -/
theorem encoding?_append_eq_append
    {record : Record} {first second : List Leaf} {front back : Bytes}
    (width : front.length = widths first) :
    encoding? record (first ++ second) = some (front ++ back) ↔
      encoding? record first = some front ∧
        encoding? record second = some back := by
  constructor
  · intro encoded
    obtain ⟨start, others, firstEncoded, secondEncoded, same⟩ :=
      encoding?_append_eq_some.mp encoded
    have sameWidth : start.length = front.length :=
      (length_encoding? firstEncoded).trans width.symm
    obtain ⟨rfl, rfl⟩ := List.append_inj same sameWidth
    exact ⟨firstEncoded, secondEncoded⟩
  · intro encoded
    exact encoding?_append encoded.1 encoded.2

/-- The leaves of a nested record are stored as those of the record alone. -/
theorem encoding?_map_within
    {record entries : Record} {field : String}
    (held : record.recordIn? field = some entries) (leaves : List Leaf) :
    encoding? record (leaves.map (within field)) =
      encoding? entries leaves := by
  induction leaves with
  | nil => simp [encoding?]
  | cons leaf rest inductionHypothesis =>
      have sameBytes :
          (leaf.within field).bytes? record = leaf.bytes? entries := by
        simp only [bytes?, within, Record.inside?, held, Option.bind_some]
        rfl
      rw [List.map_cons, encoding?, encoding?, sameBytes, inductionHypothesis]

end Leaf

/-! ## Overwriting in sequence -/

namespace Bytes

variable {buffer first second : Bytes} {offset : Nat}

@[simp]
theorem overwrite_nil (buffer : Bytes) (offset : Nat) :
    buffer.overwrite offset [] = buffer := by
  simp [overwrite]

theorem overwrite_overwrite
    (inside : offset + first.length ≤ buffer.length) :
    (buffer.overwrite offset first).overwrite (offset + first.length) second =
      buffer.overwrite offset (first ++ second) := by
  have front : (buffer.take offset ++ first).length = offset + first.length := by
    rw [List.length_append, List.length_take]
    omega
  have kept :
      (buffer.overwrite offset first).take (offset + first.length) =
        buffer.take offset ++ first := by
    rw [overwrite, List.take_left' front]
  have left :
      (buffer.overwrite offset first).drop
          (offset + first.length + second.length) =
        buffer.drop (offset + (first ++ second).length) := by
    rw [overwrite, ← List.drop_drop, List.drop_left' front, List.drop_drop,
      List.length_append, Nat.add_assoc]
  rw [overwrite, kept, left, overwrite]
  simp only [List.append_assoc]

private theorem take_append_overwrite_drop (buffer written : Bytes) (offset : Nat) :
    buffer.take offset ++ Bytes.overwrite (buffer.drop offset) 0 written =
      buffer.overwrite offset written := by
  simp [overwrite, List.drop_drop]

end Bytes

/-! ## One field at the cursor -/

namespace Writer

variable {offset count : Nat} {encode : Writer Nat} {before tail : Bytes}

private theorem encodeNested_of_ok
    (done : encode (before.drop offset) = .ok count tail)
    (inside : offset + count ≤ before.length) :
    Writer.encodeNested offset encode before =
      .ok count (before.take offset ++ tail) := by
  have starts : offset ≤ before.length := by omega
  exact encodeNested_eq_ok.mpr ⟨starts, tail, done, inside, rfl⟩

private theorem encodeNested_of_error
    {cause : CodecError}
    (failed : encode (before.drop offset) = .error cause tail)
    (inside : offset ≤ before.length) :
    Writer.encodeNested offset encode before =
      .error cause (before.take offset ++ tail) := by
  have passed : Bytes.require before.length offset = .ok () :=
    Bytes.require_eq_ok.mpr inside
  rw [Writer.encodeNested, passed]
  simp only [failed]

end Writer

namespace StoredField

variable {order : ByteOrder} {cursor : Nat} {name : String} {record : Record}
  {before : Bytes}

/-- An integer or an enum is written, or is refused and leaves the buffer as it
was. -/
theorem encodeAt_leaf
    {type : IntegerType} {enum? : Option EnumDecl}
    (room : cursor + type.width ≤ before.length) :
    encodeAt order record cursor { name, storage := .ofLeaf type enum? }
        before =
      match record.word name type enum? with
      | .ok word =>
          .ok type.width
            (before.overwrite cursor (order.bytesOf type.width word.toNat))
      | .error cause => .error cause before := by
  have written : ∀ word : UInt64,
      Writer.writeWord cursor type.width order word before =
        .ok ()
          (before.overwrite cursor (order.bytesOf type.width word.toNat)) :=
    fun word => Writer.writeWord_eq_ok.mpr ⟨room, rfl⟩
  have stores : ∀ value : Value,
      (Storage.ofLeaf type enum?).encodeAt order name value cursor =
        Writer.ofExcept (value.word name type enum?) >>= fun word =>
          Writer.writeWord cursor type.width order word >>= fun _ =>
            pure type.width := by
    intro value
    cases enum? with
    | none => rfl
    | some declaration => rfl
  unfold encodeAt Record.word
  cases record.get? name with
  | none => rfl
  | some value =>
      simp only [stores, Writer.bind_apply]
      cases value.word name type enum? with
      | error cause => rfl
      | ok word =>
          simp only [Writer.ofExcept, written]
          rfl

theorem encodeAt_of_integer
    {type : IntegerType} (sized : type.Sized) {enum? : Option EnumDecl}
    (room : cursor + type.width ≤ before.length) {integer : Int}
    (held : record.integerIn? name enum? = some integer)
    (holds : type.Holds integer) :
    encodeAt order record cursor { name, storage := .ofLeaf type enum? }
        before =
      .ok type.width
        (before.overwrite cursor (type.bytesOf order integer)) := by
  have stored : record.word name type enum? = .ok (UInt64.ofInt integer) :=
    Record.word_eq_ok.mpr ⟨integer, held, holds, rfl⟩
  rw [encodeAt_leaf room, stored]
  simp only [IntegerType.bytesOf_ofInt sized]

/-- A nested record is encoded into the tail, or is refused. -/
theorem encodeAt_record
    {codec : RecordCodec} {operation : Operation}
    (inside : cursor ≤ before.length) :
    encodeAt order record cursor
        { name, storage := .composite codec.toComposite operation } before =
      match record.entries name codec.name with
      | .ok entries =>
          Writer.encodeNested cursor (codec.encode operation entries) before
      | .error cause => .error cause before := by
  unfold encodeAt Record.entries
  cases record.get? name with
  | none => rfl
  | some value =>
      simp only [Storage.encodeAt, RecordCodec.toComposite,
        RecordCodec.encodeValue]
      cases value.record? with
      | some entries => rfl
      | none =>
          have refused :
              (throw (.typeMismatch codec.name "a record") : Writer Nat)
                  (before.drop cursor) =
                .error (.typeMismatch codec.name "a record")
                  (before.drop cursor) :=
            rfl
          simp only [Writer.encodeNested_of_error refused inside,
            List.take_append_drop]

section Nested

variable {codec : RecordCodec} {operation : Operation}
  {innerOrder : ByteOrder} {innerStored : List StoredField} {entries : Record}
  {written : Bytes}

theorem encodeAt_of_record
    (order : ByteOrder)
    (runs : codec.RunsLike operation innerOrder innerStored)
    (held : record.recordIn? name = some entries) {count : Nat}
    (walked :
      encodeFields innerOrder entries 0 innerStored (before.drop cursor) =
        .ok count (Bytes.overwrite (before.drop cursor) 0 written))
    (inside : cursor + count ≤ before.length) :
    encodeAt order record cursor
        { name, storage := .composite codec.toComposite operation } before =
      .ok count (before.overwrite cursor written) := by
  have found : record.entries name codec.name = .ok entries :=
    Record.entries_eq_ok.mpr held
  rw [← runs.encode_eq] at walked
  rw [encodeAt_record (by omega), found]
  simp only [Writer.encodeNested_of_ok walked inside,
    Bytes.take_append_overwrite_drop]

theorem encodeAt_of_failed_record
    (order : ByteOrder)
    (runs : codec.RunsLike operation innerOrder innerStored)
    (held : record.recordIn? name = some entries) {cause : CodecError}
    (stopped :
      encodeFields innerOrder entries 0 innerStored (before.drop cursor) =
        .error cause (Bytes.overwrite (before.drop cursor) 0 written))
    (inside : cursor ≤ before.length) :
    encodeAt order record cursor
        { name, storage := .composite codec.toComposite operation } before =
      .error cause (before.overwrite cursor written) := by
  have found : record.entries name codec.name = .ok entries :=
    Record.entries_eq_ok.mpr held
  rw [← runs.encode_eq] at stopped
  rw [encodeAt_record inside, found]
  simp only [Writer.encodeNested_of_error stopped inside,
    Bytes.take_append_overwrite_drop]

end Nested

section Cons

variable {field : StoredField} {rest : List StoredField}
  (room : cursor + staticWidth (field :: rest) ≤ before.length)
include room

theorem encodeFields_cons_of_ok
    {width : Nat} {between : Bytes}
    (wrote : field.encodeAt order record cursor before = .ok width between) :
    encodeFields order record cursor (field :: rest) before =
      encodeFields order record (cursor + width) rest between := by
  rw [encodeFields_cons_of_room room, Writer.bind_apply, wrote]

theorem encodeFields_cons_of_error
    {cause : CodecError} {after : Bytes}
    (failed :
      field.encodeAt order record cursor before = .error cause after) :
    encodeFields order record cursor (field :: rest) before =
      .error cause after := by
  rw [encodeFields_cons_of_room room, Writer.bind_apply, failed]

end Cons

end StoredField

end PackedRecord
