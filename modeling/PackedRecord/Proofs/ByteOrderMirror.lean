import PackedRecord.Proofs.RecordInBuffer

/-!
# The byte orders mirror each other

A record without a directive has a variant for each byte order, and the two store the
same integers at the same places.  They differ in the direction in which the bytes of
an integer stand, and not even in that below a directive, which fixes the order of a
whole subtree.

`Shape.flip` turns the bytes of exactly those integers around that follow the order
of the variant.  It leads from the buffers of one variant to the buffers of the
other.
-/

namespace PackedRecord

/-! ## Bytes of one number -/

namespace ByteOrder

def opposite : ByteOrder → ByteOrder
  | little => big
  | big => little

private theorem numberOf_reverse (order : ByteOrder) (bytes : Bytes) :
    order.opposite.numberOf bytes.reverse = order.numberOf bytes := by
  cases order with
  | little => simp only [opposite, numberOf, List.reverse_reverse]
  | big => rfl

private theorem bytesOf_opposite (order : ByteOrder) (width number : Nat) :
    order.opposite.bytesOf width number =
      (order.bytesOf width number).reverse := by
  cases order with
  | little => rfl
  | big => simp only [opposite, bytesOf, List.reverse_reverse]

end ByteOrder

private theorem IntegerType.read_reverse
    (type : IntegerType) (enum? : Option EnumDecl) (order : ByteOrder)
    (bytes : Bytes) :
    type.read enum? order.opposite bytes.reverse =
      type.read enum? order bytes := by
  simp only [read, order.numberOf_reverse]

/-- The same integer, the other way around. -/
private theorem Leaf.bytes?_opposite
    {record : Record} {leaf : Leaf} {bytes : Bytes}
    (encoded : leaf.bytes? record = some bytes) :
    bytes? record { leaf with order := leaf.order.opposite } =
      some bytes.reverse := by
  simp only [bytes?, Option.bind_eq_bind, Option.bind_eq_some_iff,
    Option.ite_none_right_eq_some, Option.some.injEq] at encoded ⊢
  obtain ⟨entries, held, integer, denotes, holds, same⟩ := encoded
  refine ⟨entries, held, integer, denotes, holds, ?_⟩
  rw [← same]
  exact ByteOrder.bytesOf_opposite _ _ _

/-! ## Bytes of a record -/

namespace Shape

/-- Turns the bytes of the integers around, each in its place, except inside of nested
records with a directive.  Bytes behind the shape stay where they are. -/
def flip : Shape → Bytes → Bytes
  | done, bytes => bytes
  | leaf _ type _ rest, bytes =>
      (bytes.take type.width).reverse ++ rest.flip (bytes.drop type.width)
  | nested _ _ none inner rest, bytes =>
      inner.flip (bytes.take inner.size) ++ rest.flip (bytes.drop inner.size)
  | nested _ _ (some _) inner rest, bytes =>
      bytes.take inner.size ++ rest.flip (bytes.drop inner.size)

private theorem length_flip (shape : Shape) (bytes : Bytes) :
    (shape.flip bytes).length = bytes.length := by
  fun_induction flip shape bytes with
  | case1 bytes => rfl
  | case2 field type enum? rest bytes inductionHypothesis =>
      rw [List.length_append, List.length_reverse, inductionHypothesis,
        ← List.length_append, List.take_append_drop]
  | case3 field record inner rest bytes innerHypothesis restHypothesis =>
      rw [List.length_append, innerHypothesis, restHypothesis,
        ← List.length_append, List.take_append_drop]
  | case4 field record fixed inner rest bytes inductionHypothesis =>
      rw [List.length_append, inductionHypothesis, ← List.length_append,
        List.take_append_drop]

section Room

variable {shape : Shape} {bytes : Bytes}

private theorem length_drop_of_room {width count : Nat}
    (room : width + count ≤ bytes.length) :
    count ≤ (bytes.drop width).length := by
  rw [List.length_drop]
  omega

/-- Flipping twice changes nothing. -/
theorem flip_flip (room : shape.size ≤ bytes.length) :
    shape.flip (shape.flip bytes) = bytes := by
  fun_induction flip shape bytes with
  | case1 bytes => rfl
  | case2 field type enum? rest bytes restHypothesis =>
      rw [size] at room
      have width : (bytes.take type.width).reverse.length = type.width := by
        rw [List.length_reverse]
        exact List.length_take_of_le (by omega)
      have behind := restHypothesis (length_drop_of_room room)
      rw [flip, List.take_left' width, List.drop_left' width, behind,
        List.reverse_reverse, List.take_append_drop]
  | case3 field record inner rest bytes innerHypothesis restHypothesis =>
      rw [size] at room
      have front : (bytes.take inner.size).length = inner.size :=
        List.length_take_of_le (by omega)
      have width : (inner.flip (bytes.take inner.size)).length = inner.size := by
        rw [length_flip, front]
      have inside := innerHypothesis (Nat.le_of_eq front.symm)
      have behind := restHypothesis (length_drop_of_room room)
      rw [flip, List.take_left' width, List.drop_left' width, inside, behind,
        List.take_append_drop]
  | case4 field record fixed inner rest bytes restHypothesis =>
      rw [size] at room
      have front : (bytes.take inner.size).length = inner.size :=
        List.length_take_of_le (by omega)
      have behind := restHypothesis (length_drop_of_room room)
      rw [flip, List.take_left' front, List.drop_left' front, behind,
        List.take_append_drop]

/-- What stands behind the shape stays. -/
theorem flip_append (room : shape.size ≤ bytes.length) (tail : Bytes) :
    shape.flip (bytes ++ tail) = shape.flip bytes ++ tail := by
  fun_induction flip shape bytes with
  | case1 bytes => rfl
  | case2 field type enum? rest bytes restHypothesis =>
      rw [size] at room
      have width : type.width ≤ bytes.length := by omega
      have behind := restHypothesis (length_drop_of_room room)
      rw [flip, List.take_append_of_le_length width,
        List.drop_append_of_le_length width, behind, List.append_assoc]
  | case3 field record inner rest bytes innerHypothesis restHypothesis =>
      rw [size] at room
      have width : inner.size ≤ bytes.length := by omega
      have behind := restHypothesis (length_drop_of_room room)
      rw [flip, List.take_append_of_le_length width,
        List.drop_append_of_le_length width, behind, List.append_assoc]
  | case4 field record fixed inner rest bytes restHypothesis =>
      rw [size] at room
      have width : inner.size ≤ bytes.length := by omega
      have behind := restHypothesis (length_drop_of_room room)
      rw [flip, List.take_append_of_le_length width,
        List.drop_append_of_le_length width, behind, List.append_assoc]

theorem flip_eq_append (room : shape.size ≤ bytes.length) :
    shape.flip bytes =
      shape.flip (bytes.take shape.size) ++ bytes.drop shape.size := by
  have front : (bytes.take shape.size).length = shape.size :=
    List.length_take_of_le room
  have joined :=
    flip_append (Nat.le_of_eq front.symm) (bytes.drop shape.size)
  rw [List.take_append_drop] at joined
  exact joined

/-- Reading a flipped record in the other order gives what it was, or fails over the
same number. -/
theorem read_flip (room : shape.size ≤ bytes.length) (order : ByteOrder) :
    shape.read order.opposite (shape.flip bytes) = shape.read order bytes := by
  fun_induction flip shape bytes with
  | case1 bytes => rfl
  | case2 field type enum? rest bytes restHypothesis =>
      rw [size] at room
      have width : (bytes.take type.width).reverse.length = type.width := by
        rw [List.length_reverse]
        exact List.length_take_of_le (by omega)
      have behind := restHypothesis (length_drop_of_room room)
      rw [read, read, List.take_left' width, List.drop_left' width, behind,
        type.read_reverse]
  | case3 field record inner rest bytes innerHypothesis restHypothesis =>
      rw [size] at room
      have front : (bytes.take inner.size).length = inner.size :=
        List.length_take_of_le (by omega)
      have width : (inner.flip (bytes.take inner.size)).length = inner.size := by
        rw [length_flip, front]
      have inside :
          inner.read order.opposite
              (inner.flip (bytes.take inner.size) ++
                rest.flip (bytes.drop inner.size)) =
            inner.read order bytes := by
        rw [read_append width, innerHypothesis (Nat.le_of_eq front.symm),
          read_take (Nat.le_refl _)]
      have behind := restHypothesis (length_drop_of_room room)
      rw [read, read, Option.getD_none, Option.getD_none, inside,
        List.drop_left' width, behind]
  | case4 field record fixed inner rest bytes restHypothesis =>
      rw [size] at room
      have front : (bytes.take inner.size).length = inner.size :=
        List.length_take_of_le (by omega)
      have inside :
          inner.read fixed
              (bytes.take inner.size ++ rest.flip (bytes.drop inner.size)) =
            inner.read fixed bytes := by
        rw [read_append front, read_take (Nat.le_refl _)]
      have behind := restHypothesis (length_drop_of_room room)
      rw [read, read, Option.getD_some, Option.getD_some, inside,
        List.drop_left' front, behind]

end Room

/-- The nested record has a directive, so its own integers stay. -/
example :
    (nested "start" "Point" (some .big) Drawing.pointShape
        (leaf "length" { width := 2, signed := false } none done)).flip
        [1, 2, 3, 4, 5] =
      [1, 2, 3, 5, 4] := by
  decide

end Shape

/-! ## Encodings of leaves -/

/-- The leaves of a conforming record, stored in the other order, are the flipped
bytes. -/
private theorem Shape.encoding?_flip
    {shape : Shape} {record : Record} (conforms : shape.Conforms record)
    {order : ByteOrder} {bytes : Bytes}
    (encoded : Leaf.encoding? record (shape.leaves order) = some bytes) :
    Leaf.encoding? record (shape.leaves order.opposite) =
      some (shape.flip bytes) := by
  induction shape generalizing record order bytes with
  | done =>
      cases encoded
      rfl
  | leaf field type enum? rest restHypothesis =>
      obtain ⟨_, restConforms⟩ := conforms
      obtain ⟨front, back, stored, others, same⟩ :=
        Leaf.encoding?_cons_eq_some.mp encoded
      have width : front.length = type.width := Leaf.length_bytes? stored
      have behind := restHypothesis restConforms others
      rw [leaves, Leaf.encoding?_cons_eq_some, ← same, flip,
        List.take_left' width, List.drop_left' width]
      exact ⟨_, _, Leaf.bytes?_opposite stored, behind, rfl⟩
  | nested field name order? inner rest innerHypothesis restHypothesis =>
      obtain ⟨⟨entries, held, innerConforms⟩, restConforms⟩ := conforms
      rw [leaves, Leaf.encoding?_append_eq_some] at encoded ⊢
      obtain ⟨front, back, stored, others, same⟩ := encoded
      have behind := restHypothesis restConforms others
      rw [Leaf.encoding?_map_within held] at stored ⊢
      have width : front.length = inner.size := by
        rw [Leaf.length_encoding? stored, widths_leaves]
      cases order? with
      | none =>
          have inside := innerHypothesis innerConforms stored
          rw [← same, flip, List.take_left' width, List.drop_left' width]
          exact ⟨_, _, inside, behind, rfl⟩
      | some fixed =>
          rw [← same, flip, List.take_left' width, List.drop_left' width]
          exact ⟨_, _, stored, behind, rfl⟩

/-! ## Records without a directive -/

namespace RecordCodec

/-- Without a directive there is a variant for each order. -/
private theorem variant?_of_undirected
    {schema : Schema} {registry : Registry} {options : GenerateOptions}
    {codec : RecordCodec}
    (compiled : compile schema registry options = .ok codec)
    (undirected : schema.directives = {}) (order : ByteOrder) :
    codec.variant? (.ordered order) = some { order, suffixed := true } := by
  have directed :
      schema.variants =
        .ok
          [{ order := .little, suffixed := true },
            { order := .big, suffixed := true }] := by
    rw [Schema.variants, undirected]
  apply (variant?_eq_some_iff compiled directed).mpr
  cases order with
  | little => exact ⟨List.mem_cons_self, rfl⟩
  | big => exact ⟨List.mem_cons_of_mem _ List.mem_cons_self, rfl⟩

section Undirected

variable {codec : RecordCodec} {shape : Shape} (has : codec.HasShape shape)
  (serves : ∀ order,
    codec.variant? (.ordered order) = some { order, suffixed := true })
include has serves

theorem decode_flip
    {buffer : Bytes} (room : shape.size ≤ buffer.length) (order : ByteOrder) :
    codec.decode (.ordered order.opposite) (shape.flip buffer) =
      codec.decode (.ordered order) buffer := by
  have roomFlipped : shape.size ≤ (shape.flip buffer).length := by
    rw [Shape.length_flip]
    exact room
  rw [has.decode_eq (serves order.opposite) roomFlipped,
    has.decode_eq (serves order) room, Shape.read_flip room]

theorem encode_flip
    {order : ByteOrder} {record : Record} {before after : Bytes} {count : Nat}
    (encoded : codec.encode (.ordered order) record before = .ok count after) :
    codec.encode (.ordered order.opposite) record before =
      .ok count (shape.flip after) := by
  obtain ⟨room, conforms, counts, bytes, stored, left⟩ :=
    (has.encode_eq_ok_iff_encoding (serves order)).mp encoded
  have width : bytes.length = shape.size := by
    rw [Leaf.length_encoding? stored, Shape.widths_leaves]
  have mirrored : shape.flip after = before.overwrite 0 (shape.flip bytes) := by
    have flipped := Shape.flip_append (Nat.le_of_eq width.symm)
      (before.drop (0 + bytes.length))
    rw [left, Bytes.overwrite, Bytes.overwrite, List.take_zero,
      List.nil_append, List.nil_append, flipped, Shape.length_flip]
  exact (has.encode_eq_ok_iff_encoding (serves order.opposite)).mpr
    ⟨room, conforms, counts, shape.flip bytes,
      Shape.encoding?_flip conforms stored, mirrored⟩

end Undirected

/-- In a catalog over enums, the two orders of a record without a directive mirror each
other.  Flipping the front of a buffer, as far as the shape of the record goes,
undoes itself and leaves the rest of the buffer.  Decoding a flipped buffer in one
order is decoding the buffer in the other, failures included; and what is encoded in
one order can be encoded in the other, with the same length and flipped bytes. -/
theorem byte_orders_mirror
    {start : Registry} {catalog : Catalog} (onlyEnums : start.OnlyEnums)
    (reached : Catalog.Reached start catalog) {codec : RecordCodec}
    (member : codec ∈ catalog.codecs) {schema : Schema} {registry : Registry}
    {options : GenerateOptions}
    (compiled : compile schema registry options = .ok codec)
    (undirected : schema.directives = {}) :
    (∃ shape, codec.HasShape shape) ∧
      ∀ shape,
        codec.HasShape shape →
          (∀ pair ∈ codec.generated.codecs,
            shape.size =
              pair.staticSize + (shape.records.map Shape.size).sum) ∧
            (∀ buffer : Bytes,
              shape.size ≤ buffer.length →
                shape.flip (shape.flip buffer) = buffer ∧
                  shape.flip buffer =
                      shape.flip (buffer.take shape.size) ++
                        buffer.drop shape.size ∧
                    codec.decode (.ordered .big) (shape.flip buffer) =
                      codec.decode (.ordered .little) buffer) ∧
              ∀ order record before count after,
                codec.encode (.ordered order) record before =
                    .ok count after →
                  ∃ mirrored,
                    codec.encode (.ordered order.opposite) record before =
                        .ok count mirrored ∧
                      mirrored.take shape.size =
                          shape.flip (after.take shape.size) ∧
                        mirrored.drop shape.size =
                          after.drop shape.size := by
  have serves := variant?_of_undirected compiled undirected
  refine ⟨reached.exists_shape onlyEnums member, ?_⟩
  intro shape has
  refine ⟨fun pair => has.size_eq, ?_, ?_⟩
  · intro buffer room
    exact ⟨Shape.flip_flip room, Shape.flip_eq_append room,
      decode_flip has serves room .little⟩
  · intro order record before count after encoded
    have mirrored := encode_flip has serves encoded
    obtain ⟨room, _⟩ :=
      (has.encode_eq_ok_iff_encoding (serves order)).mp encoded
    have sameLength := (codec.encode_keepsLength _ _).of_ok encoded
    have roomAfter : shape.size ≤ after.length := by
      rw [sameLength]
      exact room
    have width : (shape.flip (after.take shape.size)).length = shape.size := by
      rw [Shape.length_flip]
      exact List.length_take_of_le roomAfter
    refine ⟨_, mirrored, ?_, ?_⟩
    · rw [Shape.flip_eq_append roomAfter, List.take_left' width]
    · rw [Shape.flip_eq_append roomAfter, List.drop_left' width]

theorem byte_orders_mirror_line :
    ∃ codec ∈ Drawing.lines.codecs,
      codec.HasShape Drawing.lineShape ∧
        Drawing.lineShape.flip [1, 2, 3, 4, 5, 6, 7] = [1, 3, 2, 4, 6, 5, 7] ∧
          codec.decode (.ordered .big) [1, 3, 2, 4, 6, 5, 7] =
              codec.decode (.ordered .little) [1, 2, 3, 4, 5, 6, 7] ∧
            ∃ after mirrored,
              codec.encode (.ordered .little) Drawing.greenLine
                    [9, 9, 9, 9, 9, 9, 9] =
                  .ok 6 after ∧
                codec.encode (.ordered .big) Drawing.greenLine
                      [9, 9, 9, 9, 9, 9, 9] =
                    .ok 6 mirrored ∧
                  mirrored.take 6 =
                    Drawing.lineShape.flip (after.take 6) := by
  obtain ⟨codec, member, compiled, has⟩ := Drawing.exists_codec_of_lineShape
  obtain ⟨_, ofShape⟩ :=
    byte_orders_mirror Drawing.onlyEnums_colours
      (Catalog.reached_compile _ _ _) member compiled rfl
  obtain ⟨_, decodes, encodes⟩ := ofShape Drawing.lineShape has
  obtain ⟨_, _, decoded⟩ := decodes [1, 2, 3, 4, 5, 6, 7] (by decide)
  obtain ⟨after, encoded⟩ :
      ∃ after,
        codec.encode (.ordered .little) Drawing.greenLine
            [9, 9, 9, 9, 9, 9, 9] =
          .ok 6 after := by
    cases compiled
    exact ⟨_, rfl⟩
  obtain ⟨mirrored, encodedBig, same, _⟩ := encodes _ _ _ _ _ encoded
  exact ⟨codec, member, has, by decide, decoded, after, mirrored, encoded,
    encodedBig, same⟩

end RecordCodec

end PackedRecord
