import PackedRecord.Proofs.BundleCatalog
import PackedRecord.Proofs.PlainValue
import PackedRecord.Proofs.ReturnedBytes

/-!
# Exchanged records

Encoding a record through JSON is encoding it directly, whatever it holds.  A record
that was decoded into plain JSON is encoded back to the bytes it came from: its plain
form is encoded like the record itself, the record reproduces its bytes, and the
buffer is sized alike for both byte orders.

The bundle is only known to be accepted.  Nothing in it forbids an enum to give
one name to two discriminants, and such an enum does lose the second one.  Nor is
the size of the buffer checked before it is added up and allocated.
-/

namespace PackedRecord

/-! ## Catalogs over enums -/

namespace Catalog

variable {start : Registry} {catalog : Catalog} {codec : RecordCodec}

/-- All pairs of a record have one static size, by which the buffer for encoding is
sized. -/
theorem Reached.exists_staticSize
    (reached : Reached start catalog) (member : codec ∈ catalog.codecs) :
    ∃ size,
      (∀ pair ∈ codec.generated.codecs, pair.staticSize = size) ∧
        ∀ extra bits,
          Exchange.bufferSize codec extra bits = wrappingAdd bits size extra := by
  obtain ⟨_, _, _, _, _, compiled⟩ := reached.compiled member
  unfold Exchange.bufferSize
  cases pairs : codec.generated.codecs with
  | nil =>
      refine ⟨0, ?_, fun _ _ => rfl⟩
      intro pair absent
      cases absent
  | cons first rest =>
      refine ⟨first.staticSize, ?_, fun _ _ => rfl⟩
      intro pair offered
      rw [← pairs] at offered
      have firstOffered : first ∈ codec.generated.codecs := by
        rw [pairs]
        exact List.mem_cons_self
      exact RecordCodec.staticSize_eq_of_compile compiled offered firstOffered

end Catalog

namespace Drawing

/-- The drawing as a bundle describes it. -/
def described : Bundle where
  enums :=
    [{ name := "Colour"
       representation := "i8"
       variants := [⟨"red", -1⟩, ⟨"green", 4⟩, ⟨"crimson", -1⟩] }]
  records :=
    [{ name := "Point", fields := [⟨"x", "i16"⟩, ⟨"colour", "Colour"⟩] },
      { name := "Line"
        fields := [⟨"dashed", "u8"⟩, ⟨"start", "Point"⟩, ⟨"length", "u16"⟩] }]

theorem schemas_described :
    described.records.map RecordDef.schema = [point, line] := by
  cbv

theorem catalog_described : described.catalog = .ok lines := by
  have parts : described.parts = .ok (colours, [point, line]) := by
    rw [← schemas_described]
    rfl
  rw [Bundle.catalog, parts]
  rfl

/-- A bundle with an enum that gives one name to two discriminants. -/
def namesakes : Bundle where
  enums :=
    [{ name := "Shade"
       representation := "u8"
       variants := [⟨"dark", 1⟩, ⟨"dark", 2⟩] }]
  records := [{ name := "Mark", fields := [⟨"shade", "Shade"⟩] }]

def marks : Catalog :=
  Catalog.compile
    (Registry.empty.declare
      (.enum
        { name := "Shade"
          representation := .u8
          variants := [("dark", 1), ("dark", 2)] }))
    [(Schema.builder "Mark").field "shade" (.named "Shade")]
    {}

theorem catalog_namesakes : namesakes.catalog = .ok marks := by
  have schemas :
      namesakes.records.map RecordDef.schema =
        [(Schema.builder "Mark").field "shade" (.named "Shade")] := by
    cbv
  rw [Bundle.catalog, Bundle.parts, schemas]
  rfl

/-- A line with a variant and with numbers that have a sign and do not need one. -/
def redLine : Record :=
  [("dashed", .unsigned 1),
    ("start", .record [("x", .signed 3), ("colour", .variant "red")]),
    ("length", .signed 258)]

end Drawing

/-! ## There and back -/

namespace Exchange

theorem codec_eq_ok {catalog : Catalog} {record : String}
    {found : RecordCodec} :
    codec catalog record = .ok found ↔ catalog.codec? record = some found := by
  unfold codec
  cases catalog.codec? record <;> simp

private theorem parts_of_decode
    {catalog : Catalog} {record : String} {order : Option String}
    {bytes : Bytes} {json : Json} {read : Nat}
    (done : decode catalog record order bytes = .ok (json, read)) :
    ∃ found asked entries,
      catalog.codec? record = some found ∧
        operation order = .ok asked ∧
          found.decode asked bytes = .ok (entries, read) ∧
            json = .object (toMembers entries) := by
  simp only [decode, bind_eq_ok, codec_eq_ok] at done
  rcases done with ⟨found, known, asked, ordered, answered⟩
  cases outcome : found.decode asked bytes with
  | error cause =>
      rw [outcome] at answered
      cases answered
  | ok result =>
      rw [outcome] at answered
      cases answered
      exact ⟨found, asked, result.1, known, ordered, outcome, rfl⟩

theorem encode_eq_ok_iff
    {catalog : Catalog} {record : String} {found : RecordCodec}
    (known : catalog.codec? record = some found)
    {order : Option String} {asked : Operation}
    (ordered : operation order = .ok asked) (entries : Record)
    {extra bits : Nat} {result : Bytes} :
    encode catalog record order (toMembers entries) extra bits = .ok result ↔
      bufferSize found extra bits < 2 ^ (bits - 1) ∧
        ∃ written after,
          found.encode asked (plainEntries entries)
              (List.replicate (bufferSize found extra bits) 0) =
            .ok written after ∧
            after.take written = result := by
  have knows : codec catalog record = .ok found := codec_eq_ok.mpr known
  rw [encode, knows, ordered, ofMembers_toMembers]
  show (zeros _ bits >>= _) = _ ↔ _
  by_cases allocated : bufferSize found extra bits < 2 ^ (bits - 1)
  · simp only [zeros, if_pos allocated, bind_eq_ok, Except.ok.injEq,
      exists_eq_left']
    cases found.encode asked (plainEntries entries)
        (List.replicate (bufferSize found extra bits) 0) with
    | ok written after => simp [allocated, pure_eq_ok]
    | error cause after => simp
  · rw [zeros, if_neg allocated]
    simp [allocated, bind_eq_ok]

/-- A buffer that is sized for some extra bytes has room exactly if the sizes do not go
round and the buffer is one that can be allocated. -/
theorem wrappingAdd_has_room_iff
    {bits size extra read : Nat} (word : extra < 2 ^ bits) (least : size ≤ read) :
    wrappingAdd bits size extra < 2 ^ (bits - 1) ∧
        read ≤ wrappingAdd bits size extra ↔
      read ≤ size + extra ∧ size + extra < 2 ^ (bits - 1) := by
  have half : 2 ^ (bits - 1) ≤ 2 ^ bits :=
    Nat.pow_le_pow_right Nat.two_pos (Nat.sub_le bits 1)
  by_cases fits : size + extra < 2 ^ bits
  · rw [wrappingAdd_of_lt fits, and_comm]
  · have wraps := wrappingAdd_lt_of_le word (Nat.le_of_not_lt fits)
    omega

/-- What was decoded from some bytes is encoded to the bytes that were read, in every
catalog of a bundle and on a machine of any word size, exactly if the buffer has room for
them and can be allocated, and every enum among the bytes holds a discriminant that its
name leads back to. -/
theorem encode_returns_decoded
    {bundle : Bundle} {catalog : Catalog}
    (compiles : bundle.catalog = .ok catalog)
    {record : String} {order : Option String} {bytes : Bytes} {json : Json}
    {read : Nat}
    (decoded : decode catalog record order bytes = .ok (json, read)) :
    ∃ codec asked variant size members,
      catalog.codec? record = some codec ∧
        operation order = .ok asked ∧
          codec.variant? asked = some variant ∧
            codec.generated.codecs ≠ [] ∧
              (∀ pair ∈ codec.generated.codecs, pair.staticSize = size) ∧
                json = .object members ∧
                  read ≤ bytes.length ∧
                    (∃ shape, codec.HasShape shape) ∧
                      ∀ shape,
                        codec.HasShape shape →
                          ∀ bits extra,
                            extra < 2 ^ bits →
                              (encode catalog record order members extra bits =
                                  .ok (bytes.take read) ↔
                                (read ≤ size + extra ∧
                                  size + extra < 2 ^ (bits - 1)) ∧
                                  shape.ReturnsAt variant.order bytes 0) := by
  obtain ⟨start, onlyEnums, reached⟩ := Bundle.exists_start_of_catalog compiles
  obtain ⟨codec, asked, entries, found, ordered, done, rfl⟩ :=
    parts_of_decode decoded
  have member : codec ∈ catalog.codecs := List.mem_of_find?_eq_some found
  obtain ⟨variant, serves⟩ := RecordCodec.exists_variant_of_decode done
  obtain ⟨pair, answers, _⟩ := Option.map_eq_some_iff.mp serves
  have offered : pair ∈ codec.generated.codecs :=
    List.mem_of_find?_eq_some answers
  obtain ⟨shape, has⟩ := reached.exists_shape onlyEnums member
  obtain ⟨size, sizes, sized⟩ := reached.exists_staticSize member
  have inside : read ≤ bytes.length := by
    obtain ⟨room, same, _⟩ := (has.decode_eq_ok_iff serves).mp ⟨entries, done⟩
    omega
  refine ⟨codec, asked, variant, size, _, found, ordered, serves,
    List.ne_nil_of_mem offered, sizes, rfl, inside, ⟨shape, has⟩, ?_⟩
  intro shape has bits extra word
  have least : size ≤ read := by
    obtain ⟨_, same, _⟩ := (has.decode_eq_ok_iff serves).mp ⟨entries, done⟩
    rw [same, ← sizes pair offered, has.staticSize_eq offered]
    exact shape.staticSize_le_size
  have returns :=
    has.encode_decoded_iff serves done
      (List.replicate (bufferSize codec extra bits) 0)
  rw [List.length_replicate] at returns
  rw [encode_eq_ok_iff found ordered,
    reached.takesPlain onlyEnums member asked entries, returns, ← and_assoc, sized,
    wrappingAdd_has_room_iff word least]

/-- On a machine with words of 32 bits. -/
theorem encode_returns_decoded_of_line :
    ∃ members,
      Drawing.described.catalog = .ok Drawing.lines ∧
        decode Drawing.lines "Line" (some "big")
              [1, 0xFF, 0xFE, 4, 1, 2, 9] =
            .ok (.object members, 6) ∧
          encode Drawing.lines "Line" (some "big") members 6 32 =
            .ok [1, 0xFF, 0xFE, 4, 1, 2] := by
  obtain ⟨members, decoded⟩ :
      ∃ members,
        decode Drawing.lines "Line" (some "big")
            [1, 0xFF, 0xFE, 4, 1, 2, 9] =
          .ok (.object members, 6) :=
    ⟨_, rfl⟩
  obtain ⟨codec, asked, variant, size, _, found, ordered, serves, _, sizes, same,
    _, _, returns⟩ :=
    encode_returns_decoded Drawing.catalog_described decoded
  cases same
  obtain ⟨line, _, compiled, has⟩ := Drawing.exists_codec_of_lineShape
  have sameCodec : line = codec := by
    cases compiled
    exact Option.some.inj found
  rw [sameCodec] at compiled has
  have three : size = 3 := by
    cases compiled
    exact (sizes _ List.mem_cons_self).symm
  have big : variant.order = .big := by
    cases compiled
    cases ordered
    cases serves
    rfl
  have comesBack :
      Drawing.lineShape.ReturnsAt .big [1, 0xFF, 0xFE, 4, 1, 2, 9] 0 := by
    decide
  refine ⟨members, Drawing.catalog_described, decoded, ?_⟩
  apply (returns Drawing.lineShape has 32 6 (by decide)).mpr
  rw [three, big]
  exact ⟨by decide, comesBack⟩

/-- An enum that gives one name to two discriminants is accepted, and the second one
comes back as the first.  A buffer with half of all sizes as extra room is not allocated,
and with the greatest size as extra room it has no room at all. -/
theorem encode_changes_namesake :
    ∃ catalog codec members,
      Drawing.namesakes.catalog = .ok catalog ∧
        catalog.codec? "Mark" = some codec ∧
          decode catalog "Mark" (some "little") [2] =
              .ok (.object members, 1) ∧
            bufferSize codec 0 = 1 ∧
              encode catalog "Mark" (some "little") members 0 = .ok [1] ∧
                encode catalog "Mark" (some "little") members (2 ^ 63) =
                    .error .capacityOverflow ∧
                  encode catalog "Mark" (some "little") members (2 ^ 64 - 1) =
                    .error (.codec (.bufferTooSmall 1 0)) :=
  ⟨Drawing.marks, _, _, Drawing.catalog_namesakes, rfl, rfl, rfl, rfl, rfl, rfl⟩

/-! ## Encoding through JSON -/

/-- In the catalog of a bundle a record that has been through JSON is encoded as it
would have been before.  Whatever it holds and however it is encoded, it comes back,
and it gives the same count or the same error and leaves the same buffer. -/
theorem encode_unchanged_by_json
    {bundle : Bundle} {catalog : Catalog}
    (compiles : bundle.catalog = .ok catalog) {codec : RecordCodec}
    (member : codec ∈ catalog.codecs) (operation : Operation)
    (record : Record) :
    ∃ entries,
      ofMembers (toMembers record) = .ok entries ∧
        ∀ before,
          codec.encode operation entries before =
            codec.encode operation record before := by
  obtain ⟨start, onlyEnums, reached⟩ :=
    Bundle.exists_start_of_catalog compiles
  have takesPlain := reached.takesPlain onlyEnums member operation
  refine ⟨plainEntries record, ofMembers_toMembers record, ?_⟩
  intro before
  rw [takesPlain record]

/-- A line of which JSON changes the variant, the signed numbers, and nothing in the
bytes that it is encoded to. -/
theorem encode_unchanged_by_json_of_line :
    ∃ codec ∈ Drawing.lines.codecs, ∃ entries,
      Drawing.described.catalog = .ok Drawing.lines ∧
        ofMembers (toMembers Drawing.redLine) = .ok entries ∧
          (Drawing.redLine.get? "length" = some (.signed 258) ∧
            Record.get? entries "length" = some (.unsigned 258)) ∧
            codec.encode (.ordered .big) entries [9, 9, 9, 9, 9, 9, 9] =
              .ok 6 [1, 0, 3, 0xFF, 1, 2, 9] := by
  have member : Drawing.lines.codecs[1] ∈ Drawing.lines.codecs :=
    List.getElem_mem _
  obtain ⟨entries, back, same⟩ :=
    encode_unchanged_by_json Drawing.catalog_described member (.ordered .big)
      Drawing.redLine
  have plainLength :
      Record.get? entries "length" = some (.unsigned 258) := by
    cases back
    rfl
  refine ⟨_, member, entries, Drawing.catalog_described, back,
    ⟨rfl, plainLength⟩, ?_⟩
  rw [same]
  rfl

end Exchange

end PackedRecord
