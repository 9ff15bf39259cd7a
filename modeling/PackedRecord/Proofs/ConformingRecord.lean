import PackedRecord.Proofs.RecordInBuffer

/-!
# Conforming records

Which records are encoded is read off the shape as well: a record has to conform,
and the buffer has to have room.  It is written then as the bytes of its leaves, over
the front of the buffer.  What a record holds besides the fields of its shape plays no
part, neither in the outcome nor in the bytes.
-/

namespace PackedRecord

namespace Shape

/-- Two records hold the same in every field of the shape.  Other entries, of the
records or of records nested in them, may differ. -/
def Alike (first second : Record) : Shape → Prop
  | done => True
  | leaf field _ _ rest =>
      first.get? field = second.get? field ∧ rest.Alike first second
  | nested field _ _ inner rest =>
      (first.get? field = second.get? field ∨
        ∃ entries others,
          first.get? field = some (.record entries) ∧
            second.get? field = some (.record others) ∧
              inner.Alike entries others) ∧
        rest.Alike first second

end Shape

private theorem Record.get?_append_of_other
    (record extra : Record) {field : String}
    (other : ∀ entry ∈ extra, entry.1 ≠ field) :
    (record ++ extra).get? field = record.get? field := by
  induction record with
  | nil =>
      rw [List.nil_append]
      induction extra with
      | nil => rfl
      | cons entry rest inductionHypothesis =>
          have differs := other entry List.mem_cons_self
          have others :=
            inductionHypothesis fun later member =>
              other later (List.mem_cons_of_mem _ member)
          exact (if_neg differs).trans others
  | cons entry rest inductionHypothesis =>
      rw [List.cons_append, Record.get?, Record.get?, inductionHypothesis]

/-- Entries under names that are no fields of the shape are extra. -/
private theorem Shape.alike_append
    {shape : Shape} (record extra : Record)
    (other : ∀ entry ∈ extra, entry.1 ∉ shape.fields) :
    shape.Alike (record ++ extra) record := by
  have same : ∀ field ∈ shape.fields,
      (record ++ extra).get? field = record.get? field := by
    intro field member
    apply Record.get?_append_of_other
    intro entry entryMember named
    exact other entry entryMember (named ▸ member)
  clear other
  induction shape with
  | done => trivial
  | leaf field type enum? rest restHypothesis =>
      have first := same field List.mem_cons_self
      refine ⟨first, restHypothesis ?_⟩
      intro later member
      exact same later (List.mem_cons_of_mem _ member)
  | nested field typeName order? inner rest _ restHypothesis =>
      have first := same field List.mem_cons_self
      refine ⟨Or.inl first, restHypothesis ?_⟩
      intro later member
      exact same later (List.mem_cons_of_mem _ member)

/-- A green line with an entry in its start that no field asks for. -/
def Drawing.notedLine : Record :=
  [("length", .signed 258),
    ("start",
      .record
        [("colour", .text "green"), ("note", .text "bold"), ("x", .signed (-2))]),
    ("dashed", .unsigned 1)]

namespace StoredField

private theorem encodeAt_of_same
    {order : ByteOrder} {field : StoredField} {first second : Record}
    (same : first.get? field.name = second.get? field.name) (cursor : Nat) :
    field.encodeAt order first cursor = field.encodeAt order second cursor := by
  unfold encodeAt
  rw [same]

private theorem Expands.encodeFields_of_alike
    {order : ByteOrder} {stored : List StoredField} {shape : Shape}
    (expands : Expands order stored shape) {first second : Record}
    (alike : shape.Alike first second) (cursor : Nat) :
    encodeFields order first cursor stored =
      encodeFields order second cursor stored := by
  induction expands generalizing first second cursor with
  | done => rw [encodeFields, encodeFields]
  | @leaf order stored shape type name enum? sized rest inductionHypothesis =>
      obtain ⟨same, others⟩ := alike
      have sameField :
          encodeAt order first cursor { name, storage := .ofLeaf type enum? } =
            encodeAt order second cursor
              { name, storage := .ofLeaf type enum? } :=
        encodeAt_of_same same cursor
      simp only [encodeFields, sameField, inductionHypothesis others]
  | @nested order order? innerStored stored innerShape shape codec operation
      name runs inner rest innerHypothesis restHypothesis =>
      obtain ⟨held, others⟩ := alike
      have sameField :
          encodeAt order first cursor
              { name, storage := .composite codec.toComposite operation } =
            encodeAt order second cursor
              { name, storage := .composite codec.toComposite operation } := by
        rcases held with same | ⟨entries, otherEntries, held, otherHeld, within⟩
        · exact encodeAt_of_same same cursor
        · have encodes :
              codec.encode operation entries =
                codec.encode operation otherEntries := by
            funext before
            rw [runs.encode_eq, runs.encode_eq, innerHypothesis within]
          unfold encodeAt
          simp only [held, otherHeld, Storage.encodeAt, RecordCodec.toComposite,
            RecordCodec.encodeValue, Value.record?, encodes]
      simp only [encodeFields, sameField, restHypothesis others]

end StoredField

namespace RecordCodec

theorem HasShape.encode_of_alike
    {codec : RecordCodec} {shape : Shape} (has : codec.HasShape shape)
    {operation : Operation} {variant : Variant}
    (serves : codec.variant? operation = some variant)
    {first second : Record} (alike : shape.Alike first second) :
    codec.encode operation first = codec.encode operation second := by
  obtain ⟨stored, runs, expands⟩ := has.exists_run serves
  funext before
  rw [runs.encode_eq, runs.encode_eq, expands.encodeFields_of_alike alike]

/-- The bytes that encoding leaves in the front of a buffer, which are those of all
leaves, one behind the other. -/
theorem HasShape.written_of_encode
    {codec : RecordCodec} {shape : Shape} (has : codec.HasShape shape)
    {operation : Operation} {variant : Variant}
    (serves : codec.variant? operation = some variant)
    {record : Record} {before after : Bytes} {count : Nat}
    (encoded : codec.encode operation record before = .ok count after) :
    count = shape.size ∧
      ∃ bytes,
        Leaf.encoding? record (shape.leaves variant.order) = some bytes ∧
          bytes.length = shape.size ∧ after = before.overwrite 0 bytes := by
  obtain ⟨_, _, counted, bytes, encoding, left⟩ :=
    (has.encode_eq_ok_iff_encoding serves).mp encoded
  have width := Leaf.length_encoding? encoding
  rw [shape.widths_leaves] at width
  exact ⟨counted, bytes, encoding, width, left⟩

/-- Every record of a catalog over enums has a shape, with one size for all of its
variants.  The operations that the record offers encode exactly the records that
conform to the shape into exactly the buffers that have room for it.  They write the
bytes of the leaves over the front of the buffer, as many as the shape takes, and leave
the rest as it was.  What a record holds besides has no effect. -/
theorem encode_accepts_conforming
    {start : Registry} {catalog : Catalog} (onlyEnums : start.OnlyEnums)
    (reached : Catalog.Reached start catalog) {codec : RecordCodec}
    (member : codec ∈ catalog.codecs) :
    (∃ shape, codec.HasShape shape) ∧
      ∀ shape,
        codec.HasShape shape →
          (∀ pair ∈ codec.generated.codecs,
            shape.size =
              pair.staticSize + (shape.records.map Shape.size).sum) ∧
            ∀ operation,
              codec.contract.offers operation = true →
                (∃ variant,
                  codec.variant? operation = some variant ∧
                    ∀ record before,
                      ((∃ count after,
                          codec.encode operation record before =
                            .ok count after) ↔
                        shape.size ≤ before.length ∧
                          shape.Conforms record) ∧
                        ∀ count after,
                          codec.encode operation record before =
                              .ok count after →
                            count = shape.size ∧
                              ∃ bytes,
                                Leaf.encoding? record
                                    (shape.leaves variant.order) =
                                  some bytes ∧
                                  bytes.length = shape.size ∧
                                    after = before.overwrite 0 bytes) ∧
                  ∀ first second,
                    shape.Alike first second →
                      ∀ before,
                        codec.encode operation first before =
                          codec.encode operation second before := by
  refine ⟨reached.exists_shape onlyEnums member, ?_⟩
  intro shape has
  refine ⟨fun pair => has.size_eq, ?_⟩
  intro operation offered
  obtain ⟨variant, serves⟩ := offers_iff_exists_variant.mp offered
  refine ⟨⟨variant, serves, ?_⟩, ?_⟩
  · intro record before
    constructor
    · constructor
      · intro succeeds
        obtain ⟨count, encoded⟩ := succeeds
        have accepted := (has.encode_eq_ok_iff serves).mp encoded
        exact ⟨accepted.1, accepted.2.1⟩
      · intro fits
        obtain ⟨room, conforms⟩ := fits
        exact ⟨shape.size,
          (has.encode_eq_ok_iff serves).mpr ⟨room, conforms, rfl⟩⟩
    · intro count after encoded
      exact has.written_of_encode serves encoded
  · intro first second alike before
    rw [has.encode_of_alike serves alike]

/-- A green line is encoded, also with a note in its start and with a width behind its
fields, and the last byte of the buffer stays.  It is not encoded if it is dashed by more
than a byte. -/
theorem encode_accepts_conforming_line :
    ∃ codec ∈ Drawing.lines.codecs,
      codec.HasShape Drawing.lineShape ∧
        codec.encode (.ordered .big) Drawing.greenLine [9, 9, 9, 9, 9, 9, 9] =
            .ok 6 [1, 0xFF, 0xFE, 4, 1, 2, 9] ∧
          codec.encode (.ordered .big)
              (Drawing.notedLine ++ [("width", .unsigned 7)])
              [9, 9, 9, 9, 9, 9, 9] =
            .ok 6 [1, 0xFF, 0xFE, 4, 1, 2, 9] ∧
            ¬∃ count after,
              codec.encode (.ordered .big)
                  (Drawing.greenLine.set "dashed" (.unsigned 256))
                  [9, 9, 9, 9, 9, 9, 9] =
                .ok count after := by
  obtain ⟨codec, member, compiled, has⟩ := Drawing.exists_codec_of_lineShape
  obtain ⟨_, accepts⟩ :=
    encode_accepts_conforming Drawing.onlyEnums_colours
      (Catalog.reached_compile _ _ _) member
  obtain ⟨_, encodes⟩ := accepts Drawing.lineShape has
  have offered := Drawing.offers_ordered_of_line compiled .big
  obtain ⟨⟨variant, serves, accepted⟩, alike⟩ := encodes (.ordered .big) offered
  have big : variant.order = .big := by
    cases compiled
    cases serves
    rfl
  have greenConforms : Drawing.lineShape.Conforms Drawing.greenLine :=
    ⟨⟨1, rfl, by decide⟩,
      ⟨_, rfl, ⟨-2, rfl, by decide⟩, ⟨4, rfl, by decide⟩, trivial⟩,
      ⟨258, rfl, by decide⟩, trivial⟩
  have greenEncodes :
      codec.encode (.ordered .big) Drawing.greenLine [9, 9, 9, 9, 9, 9, 9] =
        .ok 6 [1, 0xFF, 0xFE, 4, 1, 2, 9] := by
    obtain ⟨succeeds, writes⟩ :=
      accepted Drawing.greenLine [9, 9, 9, 9, 9, 9, 9]
    obtain ⟨count, after, encoded⟩ :=
      succeeds.mpr ⟨by decide, greenConforms⟩
    obtain ⟨size, bytes, encoding, _, left⟩ := writes count after encoded
    have green :
        Leaf.encoding? Drawing.greenLine (Drawing.lineShape.leaves .big) =
          some [1, 0xFF, 0xFE, 4, 1, 2] :=
      rfl
    rw [big, green, Option.some.injEq] at encoding
    rw [encoded, size, left, ← encoding]
    rfl
  have noted : Drawing.lineShape.Alike Drawing.notedLine Drawing.greenLine :=
    ⟨rfl, Or.inr ⟨_, _, rfl, rfl, rfl, rfl, trivial⟩, rfl, trivial⟩
  have widened :
      Drawing.lineShape.Alike
        (Drawing.notedLine ++ [("width", .unsigned 7)]) Drawing.notedLine :=
    Shape.alike_append _ _ (by decide)
  refine ⟨codec, member, has, greenEncodes, ?_, ?_⟩
  · rw [alike _ _ widened, alike _ _ noted, greenEncodes]
  · obtain ⟨succeeds, _⟩ :=
      accepted (Drawing.greenLine.set "dashed" (.unsigned 256))
        [9, 9, 9, 9, 9, 9, 9]
    intro succeeded
    obtain ⟨_, ⟨integer, held, holds⟩, _⟩ := succeeds.mp succeeded
    cases held
    revert holds
    decide

end RecordCodec

end PackedRecord
