import PackedRecord.Proofs.Reencoding
import PackedRecord.Proofs.RecordInBuffer
import PackedRecord.Proofs.WellFormedBuffer

/-!
# Bytes that come back

A record that was decoded from some bytes need not be encoded to them.  An enum is
decoded to a name, and a name is encoded as the first discriminant that was declared
under it.  So the bytes come back exactly if every discriminant among them is the one
that its own name leads to, whatever else the enums declare.
-/

namespace PackedRecord

/-! ## Enums -/

namespace EnumDecl

/-- The discriminant has a name, and the name leads back to it. -/
def Returns (declaration : EnumDecl) (discriminant : Int) : Prop :=
  (declaration.nameOf? discriminant).bind declaration.valueOf? =
    some discriminant

instance (declaration : EnumDecl) (discriminant : Int) :
    Decidable (declaration.Returns discriminant) :=
  inferInstanceAs (Decidable (_ = _))

theorem returns_iff
    {declaration : EnumDecl} {discriminant : Int} {name : String}
    (named : declaration.nameOf? discriminant = some name) :
    declaration.Returns discriminant ↔
      declaration.valueOf? name = some discriminant := by
  rw [Returns, named, Option.bind_some]

end EnumDecl

/-- Every enum of a record in a buffer holds a discriminant that comes back. -/
abbrev Shape.ReturnsAt (shape : Shape) (order : ByteOrder) (buffer : Bytes)
    (place : Nat) : Prop :=
  shape.EnumsAt EnumDecl.Returns order buffer place

/-- Enums that keep their discriminants apart return every declared one. -/
theorem Shape.returnsAt_of_faithful
    {shape : Shape} {order : ByteOrder} {buffer : Bytes} {place : Nat}
    (faithful :
      ∀ leaf ∈ shape.leaves order,
        ∀ declaration ∈ leaf.enum?, declaration.Faithful)
    (declared : shape.DeclaredAt order buffer place) :
    shape.ReturnsAt order buffer place := by
  intro entry member declaration isEnum
  obtain ⟨variant, listed, same⟩ := declared entry member declaration isEnum
  have back :=
    faithful entry.2 (Leaf.mem_of_mem_placed member) declaration isEnum variant
      listed
  rw [same] at back
  exact back

/-! ## Integers -/

namespace IntegerType

variable {type : IntegerType} (sized : type.Sized) (order : ByteOrder)
include sized

/-- What is stored of the integer that some bytes denote is these bytes. -/
theorem bytesOf_denoted
    {bytes : Bytes} (width : bytes.length = type.width) :
    type.bytesOf order (type.denoted (order.numberOf bytes)) = bytes := by
  rw [← bytesOf_ofInt sized, ← number_numberOf sized order width]
  exact bytesOf_number sized order width

private theorem holds_denoted
    {bytes : Bytes} (width : bytes.length = type.width) :
    type.Holds (type.denoted (order.numberOf bytes)) := by
  rw [← number_numberOf sized order width]
  exact holds_number sized _ (word_numberOf_lt sized order width)

theorem denoted_bytesOf {integer : Int} (holds : type.Holds integer) :
    type.denoted (order.numberOf (type.bytesOf order integer)) = integer := by
  have width : (type.bytesOf order integer).length = type.width :=
    order.length_bytesOf _ _
  rw [← number_numberOf sized order width, ← bytesOf_ofInt sized]
  exact number_bytesOf sized order holds

/-- Two integers of the type that are stored alike are the same. -/
theorem bytesOf_inj
    {integer other : Int} (holds : type.Holds integer)
    (otherHolds : type.Holds other) :
    type.bytesOf order integer = type.bytesOf order other ↔
      integer = other := by
  constructor
  · intro same
    rw [← denoted_bytesOf sized order holds, same,
      denoted_bytesOf sized order otherHolds]
  · intro same
    rw [same]

/-- What is read as a value is stored again as it was if and only if it was no
discriminant of an enum that does not come back. -/
private theorem integerIn?_of_read
    {enum? : Option EnumDecl} {bytes : Bytes}
    (width : bytes.length = type.width) {value : Value}
    (read : type.read enum? order bytes = .ok value) :
    value.integerIn? enum? = some (type.denoted (order.numberOf bytes)) ↔
      ∀ declaration ∈ enum?,
        declaration.Returns (type.denoted (order.numberOf bytes)) := by
  cases enum? with
  | none =>
      cases read
      have held :
          (type.load (UInt64.ofNat (order.numberOf bytes))).integer? =
            some (type.denoted (order.numberOf bytes)) := by
        rw [integer?_load, number_numberOf sized order width]
      simp [Value.integerIn?, held]
  | some declaration =>
      simp only [IntegerType.read, RecordCodec.loadVariant,
        number_numberOf sized order width] at read
      split at read
      · next name named =>
          cases read
          simp only [Option.mem_some_iff, forall_eq',
            EnumDecl.returns_iff named]
          rfl
      · cases read

end IntegerType

/-- A field is stored as some bytes if and only if the record holds the integer that they
denote in it. -/
theorem Leaf.bytes?_eq_some_iff
    {type : IntegerType} (sized : type.Sized) (order : ByteOrder) {bytes : Bytes}
    (width : bytes.length = type.width) (record : Record) (field : String)
    (enum? : Option EnumDecl) :
    (∃ integer,
          record.integerIn? field enum? = some integer ∧ type.Holds integer) ∧
        bytes? record { inside := [], field, order, type, enum? } =
          some bytes ↔
      record.integerIn? field enum? =
        some (type.denoted (order.numberOf bytes)) := by
  have denotes := IntegerType.holds_denoted sized order width
  have same := IntegerType.bytesOf_denoted sized order width
  constructor
  · intro stored
    obtain ⟨⟨integer, held, holds⟩, encoded⟩ := stored
    rw [bytes?_of_integer order held holds, ← same, Option.some.injEq,
      IntegerType.bytesOf_inj sized order holds denotes] at encoded
    rw [held, encoded]
  · intro held
    refine ⟨⟨_, held, denotes⟩, ?_⟩
    rw [bytes?_of_integer order held denotes, same]

/-! ## All fields -/

namespace Shape

theorem names_of_read
    {shape : Shape} {order : ByteOrder} {bytes : Bytes} {entries : Record}
    (read : shape.read order bytes = .ok entries) :
    entries.map Prod.fst = shape.fields := by
  induction shape generalizing bytes entries with
  | done =>
      cases read
      rfl
  | leaf field type enum? rest restHypothesis =>
      simp only [Shape.read, bind_eq_ok, pure_eq_ok] at read
      obtain ⟨value, _, others, behind, rfl⟩ := read
      rw [List.map_cons, restHypothesis behind, fields]
  | nested field record order? inner rest _ restHypothesis =>
      simp only [Shape.read, bind_eq_ok, pure_eq_ok] at read
      obtain ⟨innerEntries, _, others, behind, rfl⟩ := read
      rw [List.map_cons, restHypothesis behind, fields]

/-- The record conforms to the shape and is stored as the first of some bytes. -/
def StoredAs (shape : Shape) (order : ByteOrder) (record : Record)
    (bytes : Bytes) : Prop :=
  shape.Conforms record ∧
    Leaf.encoding? record (shape.leaves order) = some (bytes.take shape.size)

section StoredAs

variable {order : ByteOrder} {record : Record} {bytes : Bytes} {name : String}

theorem storedAs_done : done.StoredAs order record bytes := by
  simp [StoredAs, Conforms, leaves, size, Leaf.encoding?]

theorem storedAs_leaf
    {type : IntegerType} (sized : type.Sized) {enum? : Option EnumDecl}
    {rest : Shape} (room : type.width ≤ bytes.length) :
    (leaf name type enum? rest).StoredAs order record bytes ↔
      record.integerIn? name enum? =
          some (type.denoted (order.numberOf (bytes.take type.width))) ∧
        rest.StoredAs order record (bytes.drop type.width) := by
  have width : (bytes.take type.width).length = type.width :=
    List.length_take_of_le room
  have widths :
      (bytes.take type.width).length =
        Leaf.widths [{ inside := [], field := name, order, type, enum? }] := by
    rw [width]
    simp [Leaf.width]
  have first := Leaf.bytes?_eq_some_iff sized order width record name enum?
  rw [StoredAs, Conforms, leaves, size, List.take_add, ← List.singleton_append,
    Leaf.encoding?_append_eq_append widths, Leaf.encoding?_singleton,
    and_and_and_comm, first]
  exact Iff.rfl

theorem storedAs_nested
    {recordName : String} {order? : Option ByteOrder} {inner rest : Shape}
    {entries : Record} (held : record.recordIn? name = some entries)
    (room : inner.size ≤ bytes.length) :
    (nested name recordName order? inner rest).StoredAs order record bytes ↔
      inner.StoredAs (order?.getD order) entries bytes ∧
        rest.StoredAs order record (bytes.drop inner.size) := by
  have widths :
      (bytes.take inner.size).length =
        Leaf.widths
          ((inner.leaves (order?.getD order)).map (Leaf.within name)) := by
    rw [Leaf.widths_map_within, inner.widths_leaves]
    exact List.length_take_of_le room
  rw [StoredAs, Conforms, leaves, size, List.take_add,
    Leaf.encoding?_append_eq_append widths, Leaf.encoding?_map_within held, held]
  simp only [Option.some.injEq, exists_eq_left']
  rw [and_and_and_comm]
  exact Iff.rfl

end StoredAs

end Shape

/-- A record that holds what was read from some bytes is stored as these bytes if and only
if the enums among them come back. -/
theorem StoredField.Expands.storedAs_iff
    {order : ByteOrder} {stored : List StoredField} {shape : Shape}
    (expands : Expands order stored shape) (distinct : shape.Distinct)
    {bytes : Bytes} (room : shape.size ≤ bytes.length) {entries record : Record}
    (read : shape.read order bytes = .ok entries)
    (held : ∀ entry ∈ entries, record.get? entry.1 = some entry.2) :
    shape.StoredAs order record bytes ↔ shape.ReturnsAt order bytes 0 := by
  induction expands generalizing bytes entries record with
  | done => exact iff_of_true Shape.storedAs_done Shape.enumsAt_done
  | @leaf order stored shape type name enum? sized rest inductionHypothesis =>
      simp only [Shape.read, bind_eq_ok, pure_eq_ok] at read
      obtain ⟨value, valueRead, others, behind, rfl⟩ := read
      obtain ⟨heldHere, heldBehind⟩ := List.forall_mem_cons.mp held
      rw [Shape.size] at room
      have here : type.width ≤ bytes.length := by omega
      have heldIn :
          record.integerIn? name enum? = value.integerIn? enum? := by
        rw [Record.integerIn?, heldHere, Option.bind_some]
      have first :=
        IntegerType.integerIn?_of_read sized order (List.length_take_of_le here)
          valueRead
      have others :=
        inductionHypothesis distinct (by rw [List.length_drop]; omega) behind
          heldBehind
      rw [Shape.storedAs_leaf sized here, heldIn, first, others,
        Shape.ReturnsAt, Shape.ReturnsAt, Shape.enumsAt_leaf,
        Shape.enumsAt_drop, Nat.zero_add, Nat.add_zero]
      exact Iff.rfl
  | @nested order order? innerStored stored innerShape shape codec operation
      name runs inner rest innerHypothesis restHypothesis =>
      obtain ⟨⟨innerNodup, innerDistinct⟩, restDistinct⟩ := distinct
      simp only [Shape.read, bind_eq_ok, pure_eq_ok] at read
      obtain ⟨innerEntries, innerRead, others, behind, rfl⟩ := read
      obtain ⟨heldHere, heldBehind⟩ := List.forall_mem_cons.mp held
      rw [Shape.size] at room
      have here : innerShape.size ≤ bytes.length := by omega
      have found : record.recordIn? name = some innerEntries := by
        rw [Record.recordIn?, heldHere]
        rfl
      rw [← Shape.names_of_read innerRead] at innerNodup
      have inside :=
        innerHypothesis innerDistinct here innerRead fun entry member =>
          Record.get?_of_mem innerNodup member
      have others :=
        restHypothesis restDistinct (by rw [List.length_drop]; omega) behind
          heldBehind
      rw [Shape.storedAs_nested found here, inside, others, Shape.ReturnsAt,
        Shape.ReturnsAt, Shape.ReturnsAt, Shape.enumsAt_nested,
        Shape.enumsAt_drop, Nat.zero_add, Nat.add_zero]

private theorem Bytes.take_overwrite_zero
    {written : Bytes} {count : Nat} (width : written.length = count)
    (before : Bytes) :
    (before.overwrite 0 written).take count = written := by
  rw [overwrite, List.take_zero, List.nil_append, List.take_left' width]

/-- What was decoded from some bytes is encoded to the bytes that were read exactly if the
buffer has room for them and the enums among them come back. -/
theorem RecordCodec.HasShape.encode_decoded_iff
    {codec : RecordCodec} {shape : Shape} (has : codec.HasShape shape)
    {operation : Operation} {variant : Variant}
    (serves : codec.variant? operation = some variant)
    {bytes : Bytes} {entries : Record} {read : Nat}
    (decoded : codec.decode operation bytes = .ok (entries, read))
    (before : Bytes) :
    (∃ written after,
        codec.encode operation entries before = .ok written after ∧
          after.take written = bytes.take read) ↔
      read ≤ before.length ∧ shape.ReturnsAt variant.order bytes 0 := by
  obtain ⟨room, rfl, _⟩ := (has.decode_eq_ok_iff serves).mp ⟨entries, decoded⟩
  rw [has.decode_eq serves room, bind_eq_ok] at decoded
  obtain ⟨_, reads, same⟩ := decoded
  cases same
  obtain ⟨stored, _, expands⟩ := has.exists_run serves
  have nodup := has.nodup_fields
  rw [← Shape.names_of_read reads] at nodup
  have returns :=
    expands.storedAs_iff has.distinct room reads fun entry member =>
      Record.get?_of_mem nodup member
  simp only [has.encode_eq_ok_iff_encoding serves]
  constructor
  · intro encoded
    obtain ⟨_, _, ⟨fits, conforms, rfl, written, encoding, rfl⟩, same⟩ :=
      encoded
    have width := Leaf.length_encoding? encoding
    rw [shape.widths_leaves] at width
    rw [Bytes.take_overwrite_zero width] at same
    rw [same] at encoding
    exact ⟨fits, returns.mp ⟨conforms, encoding⟩⟩
  · intro expected
    obtain ⟨fits, comesBack⟩ := expected
    obtain ⟨conforms, encoding⟩ := returns.mpr comesBack
    refine
      ⟨_, _, ⟨fits, conforms, rfl, _, encoding, rfl⟩,
        Bytes.take_overwrite_zero ?_ before⟩
    exact List.length_take_of_le room

end PackedRecord
