import PackedRecord.Proofs.BoundLengths
import PackedRecord.Proofs.ConformingRecord
import PackedRecord.Proofs.FailedEncoding
import PackedRecord.Proofs.HonouredContracts
import PackedRecord.Proofs.RecordInBuffer
import PackedRecord.Proofs.WellFormedBuffer

/-!
# Fields do not interfere

Every field of a catalog's record has a fixed span of bytes: its planned offset, with
the size of each nested record in the place of the length that it reports.  What a field
holds shows in its own span and nowhere else, and what stands outside of the span does
not show in the field's neighbours.

Both directions go through one relation between two buffers, `Shape.SameBut`, which
follows the fields as the cursor does.  It says without places what the spans say with
them.
-/

namespace PackedRecord

/-- The bytes of a field: from a place up to another. -/
structure Span where
  field : String
  start : Nat
  stop : Nat
  deriving DecidableEq, Repr

namespace Span

def Excludes (span : Span) (place : Nat) : Prop :=
  place < span.start ∨ span.stop ≤ place

instance (span : Span) (place : Nat) : Decidable (span.Excludes place) :=
  inferInstanceAs (Decidable (_ ∨ _))

/-- A span excludes what lies behind its width. -/
theorem excludes_add_iff {field : String} {place width index : Nat} :
    Excludes { field, start := place, stop := place + width }
        (place + index) ↔
      width ≤ index := by
  simp only [Excludes]
  omega

end Span

/-- The bytes of a planned field under a table of reported lengths. -/
def PlacedField.span (reported : List Nat) (field : PlacedField) : Span :=
  { field := field.name
    start := field.offset.sum reported
    stop := field.offset.sum reported + field.room reported }

namespace Shape

def spans (place : Nat) : Shape → List Span
  | done => []
  | leaf field type _ rest =>
      { field, start := place, stop := place + type.width } ::
        rest.spans (place + type.width)
  | nested field _ _ inner rest =>
      { field, start := place, stop := place + inner.size } ::
        rest.spans (place + inner.size)

/-- Two records hold the same in every field of the shape but one. -/
def AlikeBut (except : String) (first second : Record) : Shape → Prop
  | done => True
  | leaf field _ _ rest =>
      (field ≠ except → first.get? field = second.get? field) ∧
        rest.AlikeBut except first second
  | nested field _ _ inner rest =>
      (field ≠ except →
        first.get? field = second.get? field ∨
          ∃ entries others,
            first.get? field = some (.record entries) ∧
              second.get? field = some (.record others) ∧
                inner.Alike entries others) ∧
        rest.AlikeBut except first second

/-- Two buffers hold the same bytes for every field of the shape but one. -/
def SameBut (except : String) (first second : Bytes) : Shape → Prop
  | done => True
  | leaf field type _ rest =>
      (field ≠ except → first.take type.width = second.take type.width) ∧
        rest.SameBut except (first.drop type.width) (second.drop type.width)
  | nested field _ _ inner rest =>
      (field ≠ except → first.take inner.size = second.take inner.size) ∧
        rest.SameBut except (first.drop inner.size) (second.drop inner.size)

private theorem map_field_spans (place : Nat) (shape : Shape) :
    (shape.spans place).map Span.field = shape.fields := by
  induction shape generalizing place with
  | done => rfl
  | leaf field type enum? rest restHypothesis =>
      rw [spans, List.map_cons, restHypothesis, fields]
  | nested field record order? inner rest _ restHypothesis =>
      rw [spans, List.map_cons, restHypothesis, fields]

private theorem le_start_of_mem_spans
    {shape : Shape} {place : Nat} {span : Span}
    (member : span ∈ shape.spans place) :
    place ≤ span.start := by
  induction shape generalizing place with
  | done => cases member
  | leaf field type enum? rest restHypothesis =>
      rcases List.mem_cons.mp member with rfl | later
      · exact Nat.le_refl place
      · have behind := restHypothesis later
        omega
  | nested field record order? inner rest _ restHypothesis =>
      rcases List.mem_cons.mp member with rfl | later
      · exact Nat.le_refl place
      · have behind := restHypothesis later
        omega

end Shape

/-! ## Places outside of a field -/

/-- Two buffers hold the same in as many places as given, except where a span of the
field is.  Their first place counts as the given one. -/
def Span.SameOutside (spans : List Span) (except : String) (place count : Nat)
    (first second : Bytes) : Prop :=
  ∀ index < count,
    (∀ span ∈ spans, span.field = except → span.Excludes (place + index)) →
      first[index]? = second[index]?

/-- The places of one field come before those of the fields behind it. -/
theorem Span.sameOutside_cons_iff
    {field except : String} {place width count : Nat} {spans : List Span}
    (behind : ∀ span ∈ spans, place + width ≤ span.start)
    {first second : Bytes} :
    SameOutside ({ field, start := place, stop := place + width } :: spans)
        except place (width + count) first second ↔
      (field ≠ except → first.take width = second.take width) ∧
        SameOutside spans except (place + width) count (first.drop width)
          (second.drop width) := by
  constructor
  · intro same
    refine ⟨?_, ?_⟩
    · intro other
      apply List.ext_getElem?
      intro index
      by_cases inside : index < width
      · rw [List.getElem?_take_of_lt inside, List.getElem?_take_of_lt inside]
        apply same index (by omega)
        intro span member named
        rcases List.mem_cons.mp member with here | later
        · rw [here] at named
          exact absurd named other
        · have starts := behind span later
          exact Or.inl (by omega)
      · rw [List.getElem?_take_eq_none (by omega),
          List.getElem?_take_eq_none (by omega)]
    · intro index inRange excluded
      rw [List.getElem?_drop, List.getElem?_drop]
      apply same (width + index) (by omega)
      intro span member named
      rcases List.mem_cons.mp member with here | later
      · rw [here, Span.excludes_add_iff]
        exact Nat.le_add_right width index
      · have outside := excluded span later named
        rwa [Nat.add_assoc] at outside
  · intro parts
    obtain ⟨here, others⟩ := parts
    intro index inRange excluded
    by_cases inside : index < width
    · have other : field ≠ except := by
        intro named
        have outside :=
          excludes_add_iff.mp (excluded _ List.mem_cons_self named)
        omega
      have taken := congrArg (fun bytes : Bytes => bytes[index]?) (here other)
      simpa only [List.getElem?_take_of_lt inside] using taken
    · obtain ⟨further, rfl⟩ := Nat.exists_eq_add_of_le (Nat.le_of_not_lt inside)
      have same := others further (by omega)
      rw [List.getElem?_drop, List.getElem?_drop] at same
      apply same
      intro span member named
      have outside := excluded span (List.mem_cons_of_mem _ member) named
      rwa [← Nat.add_assoc] at outside

/-- The bytes of all fields but one are those outside of the spans of the one. -/
theorem Shape.sameBut_iff
    {shape : Shape} {except : String} {place : Nat} {first second : Bytes} :
    shape.SameBut except first second ↔
      Span.SameOutside (shape.spans place) except place shape.size first
        second := by
  induction shape generalizing place first second with
  | done =>
      constructor
      · intro _ index inRange
        cases inRange
      · intro _
        trivial
  | leaf field type enum? rest restHypothesis =>
      rw [SameBut, spans, size,
        Span.sameOutside_cons_iff fun span => le_start_of_mem_spans,
        restHypothesis]
  | nested field record order? inner rest _ restHypothesis =>
      rw [SameBut, spans, size,
        Span.sameOutside_cons_iff fun span => le_start_of_mem_spans,
        restHypothesis]

/-! ## Records that differ in one field -/

namespace Record

/-- Two records hold the same in a field if their first entries, should they be the
field's, do, and the rest of them do. -/
private theorem get?_cons_congr
    {name field : String} {value other : Value} {entries others : Record}
    (here : name = field → value = other)
    (behind : entries.get? field = others.get? field) :
    get? ((name, value) :: entries) field =
      get? ((name, other) :: others) field := by
  rw [get?, get?, behind]
  by_cases named : name = field
  · rw [here named]
  · rw [if_neg named, if_neg named]

end Record

namespace Leaf

private theorem bytes?_congr
    {first second : Record} {field : String}
    (same : first.get? field = second.get? field) (order : ByteOrder)
    (type : IntegerType) (enum? : Option EnumDecl) :
    bytes? first { inside := [], field, order, type, enum? } =
      bytes? second { inside := [], field, order, type, enum? } := by
  simp only [bytes?, Record.inside?, Option.bind_eq_bind, Option.bind_some,
    Record.integerIn?, same]

private theorem encoding?_map_within_congr
    {first second : Record} {field : String}
    (same : first.get? field = second.get? field) (leaves : List Leaf) :
    encoding? first (leaves.map (within field)) =
      encoding? second (leaves.map (within field)) := by
  induction leaves with
  | nil => rfl
  | cons leaf rest inductionHypothesis =>
      have sameBytes :
          (leaf.within field).bytes? first =
            (leaf.within field).bytes? second := by
        simp only [bytes?, within, Record.inside?, Record.recordIn?, same]
      rw [List.map_cons, encoding?, encoding?, sameBytes, inductionHypothesis]

/-- Leaves of a nested record are stored alike where the records that hold them are
the same, or are stored alike themselves. -/
private theorem encoding?_within_congr
    {first second : Record} {field : String} {leaves : List Leaf}
    (held :
      first.get? field = second.get? field ∨
        ∃ entries others,
          first.get? field = some (.record entries) ∧
            second.get? field = some (.record others) ∧
              encoding? entries leaves = encoding? others leaves) :
    encoding? first (leaves.map (within field)) =
      encoding? second (leaves.map (within field)) := by
  rcases held with same | ⟨entries, others, held, otherHeld, alike⟩
  · exact encoding?_map_within_congr same leaves
  · have inside : first.recordIn? field = some entries := by
      rw [Record.recordIn?, held]
      rfl
    have otherInside : second.recordIn? field = some others := by
      rw [Record.recordIn?, otherHeld]
      rfl
    rw [encoding?_map_within inside, encoding?_map_within otherInside, alike]

private theorem encoding?_append_congr
    {first second : Record} {front back : List Leaf}
    (sameFront : encoding? first front = encoding? second front)
    (sameBack : encoding? first back = encoding? second back) :
    encoding? first (front ++ back) = encoding? second (front ++ back) := by
  apply Option.ext
  intro bytes
  rw [encoding?_append_eq_some, encoding?_append_eq_some, sameFront, sameBack]

end Leaf

namespace Shape

variable {shape : Shape} {first second : Record} {order : ByteOrder}

private theorem encoding?_of_alike (alike : shape.Alike first second) :
    Leaf.encoding? first (shape.leaves order) =
      Leaf.encoding? second (shape.leaves order) := by
  induction shape generalizing first second order with
  | done => rfl
  | leaf field type enum? rest restHypothesis =>
      obtain ⟨same, others⟩ := alike
      rw [leaves, Leaf.encoding?, Leaf.encoding?,
        Leaf.bytes?_congr same order type enum?, restHypothesis others]
  | nested field record order? inner rest innerHypothesis restHypothesis =>
      obtain ⟨held, others⟩ := alike
      refine Leaf.encoding?_append_congr ?_ (restHypothesis others)
      apply Leaf.encoding?_within_congr
      refine held.imp_right ?_
      rintro ⟨entries, otherEntries, held, otherHeld, within⟩
      exact ⟨entries, otherEntries, held, otherHeld, innerHypothesis within⟩

private theorem alikeBut_of_get?
    {except : String}
    (same :
      ∀ field ∈ shape.fields,
        field ≠ except → first.get? field = second.get? field) :
    shape.AlikeBut except first second := by
  induction shape with
  | done => trivial
  | leaf field type enum? rest restHypothesis =>
      refine ⟨same field List.mem_cons_self, restHypothesis ?_⟩
      intro later member
      exact same later (List.mem_cons_of_mem _ member)
  | nested field record order? inner rest _ restHypothesis =>
      refine ⟨fun other => Or.inl (same field List.mem_cons_self other),
        restHypothesis ?_⟩
      intro later member
      exact same later (List.mem_cons_of_mem _ member)

/-- The bytes of two records that differ in one field differ in its bytes alone. -/
private theorem sameBut_of_alikeBut
    {except : String} (alike : shape.AlikeBut except first second)
    {bytes others : Bytes}
    (encoded : Leaf.encoding? first (shape.leaves order) = some bytes)
    (otherEncoded : Leaf.encoding? second (shape.leaves order) = some others) :
    shape.SameBut except bytes others := by
  induction shape generalizing bytes others with
  | done => trivial
  | leaf field type enum? rest restHypothesis =>
      obtain ⟨alikeHere, alikeRest⟩ := alike
      rw [leaves, Leaf.encoding?_cons_eq_some] at encoded otherEncoded
      obtain ⟨front, back, here, behind, rfl⟩ := encoded
      obtain ⟨otherFront, otherBack, otherHere, otherBehind, rfl⟩ :=
        otherEncoded
      have width : front.length = type.width := Leaf.length_bytes? here
      have otherWidth : otherFront.length = type.width :=
        Leaf.length_bytes? otherHere
      rw [SameBut, List.take_left' width, List.take_left' otherWidth,
        List.drop_left' width, List.drop_left' otherWidth]
      refine ⟨?_, restHypothesis alikeRest behind otherBehind⟩
      intro other
      rw [Leaf.bytes?_congr (alikeHere other), otherHere] at here
      exact Option.some.inj here.symm
  | nested field record order? inner rest _ restHypothesis =>
      obtain ⟨alikeHere, alikeRest⟩ := alike
      rw [leaves, Leaf.encoding?_append_eq_some] at encoded otherEncoded
      obtain ⟨front, back, here, behind, rfl⟩ := encoded
      obtain ⟨otherFront, otherBack, otherHere, otherBehind, rfl⟩ :=
        otherEncoded
      have width : front.length = inner.size := by
        rw [Leaf.length_encoding? here, Leaf.widths_map_within, widths_leaves]
      have otherWidth : otherFront.length = inner.size := by
        rw [Leaf.length_encoding? otherHere, Leaf.widths_map_within,
          widths_leaves]
      rw [SameBut, List.take_left' width, List.take_left' otherWidth,
        List.drop_left' width, List.drop_left' otherWidth]
      refine ⟨?_, restHypothesis alikeRest behind otherBehind⟩
      intro other
      have sameHere :
          Leaf.encoding? first
              ((inner.leaves (order?.getD order)).map (Leaf.within field)) =
            Leaf.encoding? second
              ((inner.leaves (order?.getD order)).map (Leaf.within field)) := by
        apply Leaf.encoding?_within_congr
        refine (alikeHere other).imp_right ?_
        rintro ⟨entries, otherEntries, held, otherHeld, within⟩
        exact ⟨entries, otherEntries, held, otherHeld, encoding?_of_alike within⟩
      rw [sameHere, otherHere] at here
      exact Option.some.inj here.symm

/-! ## Buffers that differ in one field -/

private theorem get?_of_sameBut
    {except : String} {left other : Bytes}
    (same : shape.SameBut except left other)
    (decoded : shape.read order left = .ok first)
    (otherDecoded : shape.read order other = .ok second) {field : String}
    (different : field ≠ except) :
    first.get? field = second.get? field := by
  induction shape generalizing left other first second with
  | done =>
      cases decoded
      cases otherDecoded
      rfl
  | leaf name type enum? rest restHypothesis =>
      obtain ⟨sameHere, sameRest⟩ := same
      simp only [read, bind_eq_ok, pure_eq_ok] at decoded otherDecoded
      obtain ⟨value, here, entries, behind, rfl⟩ := decoded
      obtain ⟨otherValue, otherHere, others, otherBehind, rfl⟩ := otherDecoded
      apply Record.get?_cons_congr _ (restHypothesis sameRest behind otherBehind)
      intro named
      rw [named] at sameHere
      rw [sameHere different, otherHere] at here
      exact Except.ok.inj here.symm
  | nested name record order? inner rest _ restHypothesis =>
      obtain ⟨sameHere, sameRest⟩ := same
      simp only [read, bind_eq_ok, pure_eq_ok] at decoded otherDecoded
      obtain ⟨value, here, entries, behind, rfl⟩ := decoded
      obtain ⟨otherValue, otherHere, others, otherBehind, rfl⟩ := otherDecoded
      apply Record.get?_cons_congr _ (restHypothesis sameRest behind otherBehind)
      intro named
      rw [named] at sameHere
      -- A nested record is read from no more than its own bytes.
      rw [← read_take (Nat.le_refl inner.size), sameHere different,
        read_take (Nat.le_refl inner.size), otherHere] at here
      rw [Except.ok.inj here]

end Shape

/-! ## Planned fields and the shape -/

/-- With the sizes of the nested records as their lengths, planned fields have the
spans of the shape. -/
private theorem Layout.Places.map_span
    {types : Registry} {order : ByteOrder} {start stop : Offset}
    {placed : List PlacedField} {stored : List StoredField}
    (places : Places types order start placed stored stop) {shape : Shape}
    (expands : StoredField.Expands order stored shape) {reported : List Nat}
    {count : Nat} (covers : start.Covers count)
    (sizes : reported.drop count = shape.records.map Shape.size) :
    placed.map (PlacedField.span reported) =
      shape.spans (start.sum reported) := by
  induction places generalizing shape count with
  | nil start =>
      cases expands
      rfl
  | @cons start stop access storage placed stored name reaches rest
      inductionHypothesis =>
      rw [Offset.sum_after] at inductionHypothesis
      cases expands with
      | @leaf _ _ shape type _ enum? sized behind =>
          have width : access.width = .static type.width := by
            cases enum? with
            | none => cases reaches <;> rfl
            | some declaration =>
                cases reaches
                rfl
          rw [width] at inductionHypothesis
          rw [List.map_cons, inductionHypothesis behind covers sizes,
            PlacedField.span, PlacedField.room, PlacedField.width, width]
          rfl
      | @nested _ order? innerStored _ innerShape shape codec operation _ runs
          inner behind =>
          obtain ⟨width, grown⟩ :
              access.width = .reported { index := count } ∧
                (start.after access.width).Covers (count + 1) := by
            cases reaches
            rw [covers.length_lengths]
            exact ⟨rfl, covers.plus⟩
          have present : reported[count]? = some innerShape.size := by
            have head := congrArg List.head? sizes
            rwa [List.head?_drop, Shape.records, List.map_cons,
              List.head?_cons] at head
          have sizesBehind :
              reported.drop (count + 1) = shape.records.map Shape.size := by
            have tail := congrArg List.tail sizes
            rwa [List.tail_drop] at tail
          have takes :
              Width.room reported (.reported { index := count }) =
                innerShape.size := by
            rw [Width.room, LengthVar.value, List.getD_eq_getElem?_getD, present,
              Option.getD_some]
          rw [width] at inductionHypothesis grown
          rw [List.map_cons, inductionHypothesis behind grown sizesBehind,
            PlacedField.span, PlacedField.room, PlacedField.width, width, takes]
          rfl

private theorem Bytes.getElem?_overwrite_zero
    {index : Nat} {written : Bytes} (inside : index < written.length)
    (buffer : Bytes) :
    (buffer.overwrite 0 written)[index]? = written[index]? := by
  rw [overwrite, List.take_zero, List.nil_append,
    List.getElem?_append_left inside]

namespace RecordCodec

/-- The span of a field confines what the field holds, in runs of an operation. -/
structure Confines (codec : RecordCodec) (shape : Shape) (operation : Operation)
    (span : Span) : Prop where
  /-- Two records that differ in the field alone are encoded to as many bytes, which
  differ in its span alone. -/
  encode :
    ∀ first second,
      shape.AlikeBut span.field first second →
        ∀ before otherBefore count otherCount after otherAfter,
          codec.encode operation first before = .ok count after →
            codec.encode operation second otherBefore =
                .ok otherCount otherAfter →
              otherCount = count ∧
                ∀ index < count,
                  span.Excludes index → after[index]? = otherAfter[index]?
  /-- Two buffers that differ in its span alone are decoded to records that differ in
  the field alone. -/
  decode :
    ∀ buffer other,
      (∀ index < shape.size,
          span.Excludes index → buffer[index]? = other[index]?) →
        ∀ first second count otherCount,
          codec.decode operation buffer = .ok (first, count) →
            codec.decode operation other = .ok (second, otherCount) →
              ∀ field,
                field ≠ span.field → first.get? field = second.get? field

namespace HasShape

variable {codec : RecordCodec} {shape : Shape} (has : codec.HasShape shape)
include has

/-- The planned offsets give the spans of the shape, for every operation and in both
directions. -/
private theorem map_span_eq_spans
    {operation : Operation} {pair : CodecPair}
    (answers : codec.generated.pair? operation = some pair)
    (direction : Direction) :
    ((pair.procedure direction).body.filterMap Statement.field?).map
        (PlacedField.span (shape.records.map Shape.size)) =
      shape.spans 0 := by
  obtain ⟨compiled, shaped⟩ := has
  have serves : codec.variant? operation = some pair.variant := by
    rw [variant?, answers, Option.map_some]
  obtain ⟨planned, placed, stored, total, found, storedFields, places, same⟩ :=
    layout_of_compile compiled serves
  cases answers.symm.trans found
  rw [same, Layout.procedure_emit, Layout.filterMap_field?_body]
  exact places.map_span (shaped.expands storedFields) Offset.covers_zero rfl

/-- No two fields have the same name, so the spans of a field are the one span. -/
theorem sameOutside
    {span : Span} (member : span ∈ shape.spans 0) {count : Nat}
    {first second : Bytes} :
    Span.SameOutside (shape.spans 0) span.field 0 count first second ↔
      ∀ index < count, span.Excludes index → first[index]? = second[index]? := by
  have unique :
      ∀ other ∈ shape.spans 0, other.field = span.field → other = span := by
    intro other otherMember named
    have nodup := has.nodup_fields
    rw [← shape.map_field_spans 0] at nodup
    exact List.inj_on_of_nodup_map nodup otherMember member named
  constructor
  · intro same index inRange excluded
    apply same index inRange
    intro other otherMember named
    rw [unique other otherMember named, Nat.zero_add]
    exact excluded
  · intro same index inRange excluded
    have outside := excluded span member rfl
    rw [Nat.zero_add] at outside
    exact same index inRange outside

theorem confines
    (operation : Operation) {span : Span} (member : span ∈ shape.spans 0) :
    codec.Confines shape operation span := by
  cases serves : codec.variant? operation with
  | none =>
      constructor
      · intro first second _ before otherBefore count otherCount after otherAfter
          encoded _
        rw [encode_of_no_variant serves] at encoded
        cases encoded
      · intro buffer other _ first second count otherCount decoded _
        rw [decode_of_no_variant serves] at decoded
        cases decoded
  | some variant =>
      constructor
      · intro first second alike before otherBefore count otherCount after
          otherAfter encoded otherEncoded
        obtain ⟨_, _, rfl, bytes, stored, rfl⟩ :=
          (has.encode_eq_ok_iff_encoding serves).mp encoded
        obtain ⟨_, _, rfl, others, otherStored, rfl⟩ :=
          (has.encode_eq_ok_iff_encoding serves).mp otherEncoded
        have width := Leaf.length_encoding? stored
        have otherWidth := Leaf.length_encoding? otherStored
        rw [Shape.widths_leaves] at width otherWidth
        have same :=
          (has.sameOutside member).mp
            (Shape.sameBut_iff.mp
              (Shape.sameBut_of_alikeBut alike stored otherStored))
        refine ⟨rfl, ?_⟩
        intro index inRange excluded
        rw [Bytes.getElem?_overwrite_zero (by omega),
          Bytes.getElem?_overwrite_zero (by omega)]
        exact same index inRange excluded
      · intro buffer other same first second count otherCount decoded
          otherDecoded field different
        have room := ((has.decode_eq_ok_iff serves).mp ⟨first, decoded⟩).1
        have otherRoom :=
          ((has.decode_eq_ok_iff serves).mp ⟨second, otherDecoded⟩).1
        simp only [has.decode_eq serves room, has.decode_eq serves otherRoom,
          bind_eq_ok, Except.ok.injEq, Prod.mk.injEq] at decoded otherDecoded
        obtain ⟨_, readFirst, rfl, _⟩ := decoded
        obtain ⟨_, readSecond, rfl, _⟩ := otherDecoded
        have sameBut : shape.SameBut span.field buffer other :=
          Shape.sameBut_iff.mpr ((has.sameOutside member).mpr same)
        exact Shape.get?_of_sameBut sameBut readFirst readSecond different

end HasShape

/-- Every record of a catalog over enums has a shape.  With the sizes of its nested
records as their lengths, the planned fields have the spans of the shape, for every
operation and in both directions, and the span of each field confines what the field
holds. -/
theorem spans_confine_fields
    {start : Registry} {catalog : Catalog} (onlyEnums : start.OnlyEnums)
    (reached : Catalog.Reached start catalog) {codec : RecordCodec}
    (member : codec ∈ catalog.codecs) :
    (∃ shape, codec.HasShape shape) ∧
      ∀ shape,
        codec.HasShape shape →
          (∀ operation pair,
            codec.generated.pair? operation = some pair →
              ∀ direction,
                ((pair.procedure direction).body.filterMap
                      Statement.field?).map
                    (PlacedField.span (shape.records.map Shape.size)) =
                  shape.spans 0) ∧
            ∀ operation,
              ∀ span ∈ shape.spans 0, codec.Confines shape operation span := by
  refine ⟨reached.exists_shape onlyEnums member, ?_⟩
  intro shape has
  refine ⟨?_, ?_⟩
  · intro operation pair answers direction
    exact has.map_span_eq_spans answers direction
  · intro operation span spanMember
    exact has.confines operation spanMember

/-- A green line and a red one that starts elsewhere differ in the three bytes of their
start, and so do lines that are decoded from bytes that differ there. -/
theorem spans_confine_fields_of_line :
    ∃ codec ∈ Drawing.lines.codecs,
      codec.HasShape Drawing.lineShape ∧
        { field := "start", start := 1, stop := 4 } ∈
            Drawing.lineShape.spans 0 ∧
          (∃ after otherAfter,
            codec.encode (.ordered .big) Drawing.greenLine
                  [9, 9, 9, 9, 9, 9, 9] =
                .ok 6 after ∧
              codec.encode (.ordered .big)
                    (Drawing.greenLine.set "start"
                      (.record [("x", .signed 7), ("colour", .text "red")]))
                    [0, 0, 0, 0, 0, 0] =
                  .ok 6 otherAfter ∧
                after[0]? = otherAfter[0]? ∧
                  after[4]? = otherAfter[4]? ∧ after[5]? = otherAfter[5]?) ∧
            ∃ first second,
              codec.decode (.ordered .big) [1, 0, 5, 4, 0, 9, 8] =
                  .ok (first, 6) ∧
                codec.decode (.ordered .big) [1, 2, 6, 255, 0, 9] =
                    .ok (second, 6) ∧
                  first.get? "dashed" = second.get? "dashed" ∧
                    first.get? "length" = second.get? "length" := by
  obtain ⟨codec, member, compiled, has⟩ := Drawing.exists_codec_of_lineShape
  obtain ⟨_, ofShape⟩ :=
    spans_confine_fields Drawing.onlyEnums_colours
      (Catalog.reached_compile _ _ _) member
  obtain ⟨_, confines⟩ := ofShape Drawing.lineShape has
  have start :
      { field := "start", start := 1, stop := 4 } ∈
        Drawing.lineShape.spans 0 := by
    decide
  obtain ⟨encodes, decodes⟩ := confines (.ordered .big) _ start
  refine ⟨codec, member, has, start, ?_, ?_⟩
  · obtain ⟨after, otherAfter, encoded, otherEncoded⟩ :
        ∃ after otherAfter,
          codec.encode (.ordered .big) Drawing.greenLine
                [9, 9, 9, 9, 9, 9, 9] =
              .ok 6 after ∧
            codec.encode (.ordered .big)
                  (Drawing.greenLine.set "start"
                    (.record [("x", .signed 7), ("colour", .text "red")]))
                  [0, 0, 0, 0, 0, 0] =
                .ok 6 otherAfter := by
      cases compiled
      exact ⟨_, _, rfl, rfl⟩
    have alike :
        Drawing.lineShape.AlikeBut "start" Drawing.greenLine
          (Drawing.greenLine.set "start"
            (.record [("x", .signed 7), ("colour", .text "red")])) := by
      apply Shape.alikeBut_of_get?
      intro field _ different
      rw [Record.get?_set, if_neg different.symm]
    obtain ⟨_, same⟩ := encodes _ _ alike _ _ _ _ _ _ encoded otherEncoded
    exact ⟨after, otherAfter, encoded, otherEncoded,
      same 0 (by decide) (by decide), same 4 (by decide) (by decide),
      same 5 (by decide) (by decide)⟩
  · obtain ⟨first, second, decoded, otherDecoded⟩ :
        ∃ first second,
          codec.decode (.ordered .big) [1, 0, 5, 4, 0, 9, 8] =
              .ok (first, 6) ∧
            codec.decode (.ordered .big) [1, 2, 6, 255, 0, 9] =
              .ok (second, 6) := by
      cases compiled
      exact ⟨_, _, rfl, rfl⟩
    have same := decodes _ _ (by decide) _ _ _ _ decoded otherDecoded
    exact ⟨first, second, decoded, otherDecoded, same "dashed" (by decide),
      same "length" (by decide)⟩

end RecordCodec

end PackedRecord
