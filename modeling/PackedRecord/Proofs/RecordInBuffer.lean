import PackedRecord.Proofs.EncodingProgress

/-!
# Records in buffers with room

In a buffer that has room for the shape of a record, running the record has a plain
meaning.  Decoding reads the fields one after another from the front of what is left,
and can only fail over a number that is no variant of an enum.  Encoding overwrites
the front of the buffer with the bytes of the leaves, and can only fail over the
values.
-/

namespace PackedRecord

/-! ## Reading off a shape -/

/-- The value whose bytes are given, which may have to be a variant of an enum. -/
def IntegerType.read (type : IntegerType) (enum? : Option EnumDecl)
    (order : ByteOrder) (bytes : Bytes) : Except CodecError Value :=
  let word := UInt64.ofNat (order.numberOf bytes)
  match enum? with
  | none => .ok (type.load word)
  | some declaration =>
      RecordCodec.loadVariant declaration type declaration.name word

namespace Shape

/-- Reads the fields one after another from the front of the bytes that are left.
There have to be enough of them. -/
def read (order : ByteOrder) : Shape → Bytes → Except CodecError Record
  | done, _ => .ok []
  | leaf field type enum? rest, left => do
      let value ← type.read enum? order (left.take type.width)
      let others ← rest.read order (left.drop type.width)
      return (field, value) :: others
  | nested field _ order? inner rest, left => do
      let entries ← inner.read (order?.getD order) left
      let others ← rest.read order (left.drop inner.size)
      return (field, .record entries) :: others

/-- Reading does not look at the bytes behind the shape. -/
theorem read_take
    {shape : Shape} {count : Nat} (enough : shape.size ≤ count)
    (order : ByteOrder) (bytes : Bytes) :
    shape.read order (bytes.take count) = shape.read order bytes := by
  induction shape generalizing order count bytes with
  | done => rfl
  | leaf field type enum? rest restHypothesis =>
      rw [size] at enough
      have front : (bytes.take count).take type.width = bytes.take type.width := by
        rw [List.take_take, Nat.min_eq_left (by omega)]
      have behind : rest.size ≤ count - type.width := by omega
      rw [read, read, front, List.drop_take, restHypothesis behind]
  | nested field record order? inner rest innerHypothesis restHypothesis =>
      rw [size] at enough
      have inside : inner.size ≤ count := by omega
      have behind : rest.size ≤ count - inner.size := by omega
      rw [read, read, innerHypothesis inside, List.drop_take,
        restHypothesis behind]

theorem read_append
    {shape : Shape} {front : Bytes} (width : front.length = shape.size)
    (order : ByteOrder) (back : Bytes) :
    shape.read order (front ++ back) = shape.read order front := by
  have taken := read_take (Nat.le_refl shape.size) order (front ++ back)
  rw [List.take_left' width] at taken
  exact taken.symm

end Shape

/-! ## One field -/

namespace Storage

variable {order : ByteOrder} {buffer : Bytes} {cursor : Nat}

private theorem decodeAt_ofLeaf
    {type : IntegerType} (room : cursor + type.width ≤ buffer.length)
    (enum? : Option EnumDecl) :
    (ofLeaf type enum?).decodeAt order buffer cursor =
      type.read enum? order ((buffer.drop cursor).take type.width) >>=
        fun value => .ok (value, type.width) := by
  have word :
      buffer.readWord cursor type.width order =
        .ok
          (UInt64.ofNat
            (order.numberOf ((buffer.drop cursor).take type.width))) :=
    Bytes.readWord_eq_ok.mpr ⟨room, rfl⟩
  cases enum? with
  | none =>
      rw [ofLeaf, decodeAt, word]
      rfl
  | some declaration =>
      rw [ofLeaf, decodeAt, word]
      rfl

private theorem decodeAt_of_record
    {codec : RecordCodec} {operation : Operation} {entries : Record}
    {count : Nat}
    (decoded :
      codec.decode operation (buffer.drop cursor) = .ok (entries, count))
    (room : cursor + count ≤ buffer.length) :
    (composite codec.toComposite operation).decodeAt order buffer cursor =
      .ok (.record entries, count) := by
  rw [decodeAt, Bytes.decodeNested_eq_ok]
  refine ⟨by omega, ?_, room⟩
  show (codec.decode operation (buffer.drop cursor) >>= _) = _
  rw [decoded]
  rfl

private theorem decodeAt_of_failed_record
    {codec : RecordCodec} {operation : Operation} {cause : CodecError}
    (failed : codec.decode operation (buffer.drop cursor) = .error cause)
    (inside : cursor ≤ buffer.length) :
    (composite codec.toComposite operation).decodeAt order buffer cursor =
      .error cause := by
  have passed : Bytes.require buffer.length cursor = .ok () :=
    Bytes.require_eq_ok.mpr inside
  have failedInside :
      codec.toComposite.decode operation (buffer.drop cursor) =
        .error cause := by
    show (codec.decode operation (buffer.drop cursor) >>= _) = _
    rw [failed]
    rfl
  rw [decodeAt, Bytes.decodeNested, passed]
  show (codec.toComposite.decode operation (buffer.drop cursor) >>= _) = _
  rw [failedInside]
  rfl

end Storage

/-! ## All fields -/

/-- Where there is room for the whole shape, the cursor reads the fields as the shape
does, and ends behind it. -/
private theorem StoredField.Expands.decodeFields_eq
    {order : ByteOrder} {stored : List StoredField} {shape : Shape}
    (expands : Expands order stored shape) {buffer : Bytes} {cursor : Nat}
    (room : cursor + shape.size ≤ buffer.length) :
    decodeFields order buffer cursor stored =
      shape.read order (buffer.drop cursor) >>= fun entries =>
        .ok (entries, cursor + shape.size) := by
  induction expands generalizing buffer cursor with
  | done =>
      rw [Shape.size, Nat.add_zero] at room
      exact decodeFields_nil_eq_ok.mpr ⟨room, rfl, rfl⟩
  | @leaf order stored shape type name enum? sized rest inductionHypothesis =>
      -- The demand before a field asks for no more than the whole shape takes.
      have demanded := (leaf name enum? sized rest).staticWidth_le_size
      rw [Shape.size] at demanded room
      have roomBehind : cursor + type.width + shape.size ≤ buffer.length := by
        omega
      have walked := inductionHypothesis roomBehind
      rw [decodeFields_cons_of_room (by omega),
        Storage.decodeAt_ofLeaf (by omega), Shape.read, List.drop_drop,
        Shape.size, ← Nat.add_assoc]
      cases type.read enum? order ((buffer.drop cursor).take type.width) with
      | error cause => rfl
      | ok value =>
          show (decodeFields order buffer (cursor + type.width) stored >>= _) = _
          rw [walked]
          cases shape.read order (buffer.drop (cursor + type.width)) <;> rfl
  | @nested order order? innerStored stored innerShape shape codec operation
      name runs inner rest innerHypothesis restHypothesis =>
      have demanded := (nested name runs inner rest).staticWidth_le_size
      rw [Shape.size] at demanded room
      have roomInside : 0 + innerShape.size ≤ (buffer.drop cursor).length := by
        rw [List.length_drop]
        omega
      have roomBehind :
          cursor + innerShape.size + shape.size ≤ buffer.length := by
        omega
      have inside := innerHypothesis roomInside
      have walked := restHypothesis roomBehind
      rw [← runs.decode_eq, List.drop_zero, Nat.zero_add] at inside
      rw [decodeFields_cons_of_room (by omega), Shape.read, List.drop_drop,
        Shape.size, ← Nat.add_assoc]
      cases outcome :
          innerShape.read (order?.getD order) (buffer.drop cursor) with
      | error cause =>
          rw [outcome] at inside
          rw [Storage.decodeAt_of_failed_record inside (by omega)]
          rfl
      | ok entries =>
          rw [outcome] at inside
          rw [Storage.decodeAt_of_record inside (by omega)]
          show
            (decodeFields order buffer (cursor + innerShape.size) stored >>= _) =
              _
          rw [walked]
          cases shape.read order (buffer.drop (cursor + innerShape.size)) <;>
            rfl

namespace RecordCodec.HasShape

variable {codec : RecordCodec} {shape : Shape} (has : codec.HasShape shape)
  {operation : Operation} {variant : Variant}
  (serves : codec.variant? operation = some variant)
include has serves

/-- In a buffer with room for its shape, a record is decoded as the shape is read. -/
theorem decode_eq {buffer : Bytes} (room : shape.size ≤ buffer.length) :
    codec.decode operation buffer =
      shape.read variant.order buffer >>= fun entries =>
        .ok (entries, shape.size) := by
  obtain ⟨stored, runs, expands⟩ := has.exists_run serves
  have roomInside : 0 + shape.size ≤ buffer.length := by omega
  have walked := expands.decodeFields_eq roomInside
  rw [← runs.decode_eq, List.drop_zero, Nat.zero_add] at walked
  exact walked

/-- A record that is encoded overwrites the front of the buffer with the bytes of its
leaves, all of which it has. -/
theorem encode_eq_ok_iff_encoding
    {record : Record} {before after : Bytes} {count : Nat} :
    codec.encode operation record before = .ok count after ↔
      shape.size ≤ before.length ∧ shape.Conforms record ∧
        count = shape.size ∧
          ∃ bytes,
            Leaf.encoding? record (shape.leaves variant.order) = some bytes ∧
              after = before.overwrite 0 bytes := by
  have passes :=
    Shape.passed_iff_conforms variant.order before.length record 0 shape
  rw [Nat.zero_add] at passes
  obtain ⟨bytes, encoded, outcome⟩ := has.progress_describes serves record before
  rw [outcome, ← and_assoc, ← passes]
  cases stopped :
      (shape.progress variant.order before.length record 0).cause? with
  | some cause =>
      rw [Progress.result_of_stopped stopped]
      simp
  | none =>
      rw [Shape.written_of_passed _ _ _ _ _ stopped] at encoded
      rw [Progress.result_of_passed stopped, EStateM.Result.ok.injEq]
      constructor
      · intro same
        obtain ⟨counts, left⟩ := same
        exact ⟨rfl, counts.symm, bytes, encoded, left.symm⟩
      · intro expected
        obtain ⟨_, counts, others, othersEncoded, left⟩ := expected
        cases encoded.symm.trans othersEncoded
        exact ⟨counts.symm, left.symm⟩

end RecordCodec.HasShape

end PackedRecord
