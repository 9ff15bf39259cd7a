import PackedRecord.Proofs.Agreement
import PackedRecord.Proofs.ComponentLaw

/-!
# What is encoded does not depend on the buffer

An encoder works on a buffer that holds something else already, and a composite is
handed everything up to the end of it.  If the composites of a record write the
same bytes into every buffer, so does the record: no old byte shows through inside
what it wrote, and no byte behind it changes.  A buffer that is too short for these
bytes is refused as too small, wherever the run is stopped.

The property is carried from field to field as `Writer.Fills`: a writer fills one
region of every buffer with the bytes that one given buffer has there.  Writers
that fill neighbouring regions fill the joined region when they run one behind the
other.
-/

namespace PackedRecord

namespace Writer

/-- What an encoder writes, and how much, is decided by what it encodes: it writes
the same bytes into every buffer with room for them, leaves the bytes behind them
as they were, and finds every other buffer too small. -/
def DecidedByInput (encode : Writer Nat) : Prop :=
  ∀ before count after,
    encode before = .ok count after →
      count ≤ before.length ∧
        after.drop count = before.drop count ∧
          (∀ other : Bytes,
            count ≤ other.length →
              encode other = .ok count (after.take count ++ other.drop count)) ∧
            ∀ other : Bytes,
              other.length < count →
                ∃ needed available left,
                  encode other = .error (.bufferTooSmall needed available) left

/-- On every buffer that reaches to the end of a region the writer gives the same
result and fills the region with the bytes of the content, and it finds every other
buffer too small. -/
structure Fills {result : Type} (writer : Writer result) (start stop : Nat)
    (value : result) (content : Bytes) : Prop where
  fills : ∀ before : Bytes,
    stop ≤ before.length →
      ∃ after,
        writer before = .ok value after ∧
          after.AgreeOn content start stop ∧
            before.SameOutside after start stop
  refuses : ∀ before : Bytes,
    before.length < stop →
      ∃ needed available left,
        writer before = .error (.bufferTooSmall needed available) left

namespace Fills

variable {first second : Type} {writer : Writer first}
  {next : first → Writer second} {start middle stop : Nat} {value : first}
  {last : second} {content other before after : Bytes}

theorem congr
    (fills : writer.Fills start stop value content)
    (agree : content.AgreeOn other start stop) :
    writer.Fills start stop value other := by
  refine ⟨?_, fills.refuses⟩
  intro before room
  obtain ⟨after, wrote, agreeContent, same⟩ := fills.fills before room
  exact ⟨after, wrote, agreeContent.trans agree, same⟩

/-- A run that succeeded is one of those that fill the region. -/
theorem of_ok
    (fills : writer.Fills start stop value content) {found : first}
    (done : writer before = .ok found after) :
    stop ≤ before.length ∧
      after.AgreeOn content start stop ∧ before.SameOutside after start stop := by
  by_cases room : stop ≤ before.length
  · obtain ⟨left, wrote, agree, same⟩ := fills.fills before room
    rw [done] at wrote
    cases wrote
    exact ⟨room, agree, same⟩
  · obtain ⟨needed, available, left, fails⟩ :=
      fills.refuses before (Nat.lt_of_not_le room)
    rw [done] at fails
    cases fails

/-- Writers of neighbouring regions, one run behind the other. -/
theorem bind
    (keeps : writer.KeepsLength)
    (fillsFirst : writer.Fills start middle value content)
    (fillsNext : (next value).Fills middle stop last content)
    (startFirst : start ≤ middle) (stopLast : middle ≤ stop) :
    (writer >>= next).Fills start stop last content := by
  constructor
  · intro before room
    obtain ⟨between, wrote, agree, same⟩ :=
      fillsFirst.fills before (Nat.le_trans stopLast room)
    have sameLength := keeps.of_ok wrote
    obtain ⟨after, wroteNext, agreeNext, sameNext⟩ :=
      fillsNext.fills between (by omega)
    refine ⟨after, ?_, ?_, same.trans sameNext startFirst stopLast⟩
    · rw [Writer.bind_apply, wrote]
      exact wroteNext
    · exact ((sameNext.agreeOn_front start).trans agree).append agreeNext
  · intro before short
    by_cases room : middle ≤ before.length
    · obtain ⟨between, wrote, _, _⟩ := fillsFirst.fills before room
      have sameLength := keeps.of_ok wrote
      obtain ⟨needed, available, left, fails⟩ :=
        fillsNext.refuses between (by omega)
      refine ⟨needed, available, left, ?_⟩
      rw [Writer.bind_apply, wrote]
      exact fails
    · obtain ⟨needed, available, left, fails⟩ :=
        fillsFirst.refuses before (Nat.lt_of_not_le room)
      refine ⟨needed, available, left, ?_⟩
      rw [Writer.bind_apply, fails]

theorem map
    (fills : writer.Fills start stop value content) (last : second) :
    (writer >>= fun _ => pure last).Fills start stop last content := by
  constructor
  · intro before room
    obtain ⟨after, wrote, agree, same⟩ := fills.fills before room
    refine ⟨after, ?_, agree, same⟩
    rw [Writer.bind_apply, wrote]
    rfl
  · intro before short
    obtain ⟨needed, available, left, fails⟩ := fills.refuses before short
    refine ⟨needed, available, left, ?_⟩
    rw [Writer.bind_apply, fails]

/-- Demanding no more than is filled changes nothing. -/
private theorem behind_require
    (fills : writer.Fills start stop value content) {needed : Nat}
    (covered : needed ≤ stop) :
    (Writer.require needed >>= fun _ => writer).Fills start stop value
      content := by
  constructor
  · intro before room
    have passed : Writer.require needed before = .ok () before :=
      Writer.require_eq_ok.mpr ⟨Nat.le_trans covered room, rfl⟩
    rw [Writer.bind_apply, passed]
    exact fills.fills before room
  · intro before short
    by_cases demanded : before.length < needed
    · refine ⟨needed, before.length, before, ?_⟩
      rw [Writer.bind_apply, Writer.require, Bytes.require, if_pos demanded]
      rfl
    · have passed : Writer.require needed before = .ok () before :=
        Writer.require_eq_ok.mpr ⟨Nat.le_of_not_lt demanded, rfl⟩
      rw [Writer.bind_apply, passed]
      exact fills.refuses before short

end Fills

/-! ## Encoders at the start of a buffer -/

section Encoder

variable {encode : Writer Nat} {before after : Bytes} {count : Nat}

private theorem DecidedByInput.of_fills
    (fills :
      ∀ before count after,
        encode before = .ok count after →
          encode.Fills 0 count count after) :
    encode.DecidedByInput := by
  intro before count after done
  have filled := fills before count after done
  obtain ⟨room, _, same⟩ := filled.of_ok done
  refine ⟨room, same.drop_eq, ?_, filled.refuses⟩
  intro other roomOther
  obtain ⟨left, wrote, agree, sameOther⟩ := filled.fills other roomOther
  rw [wrote, Bytes.eq_append_of_agreeOn agree sameOther]

/-- A nested encoder fills the region behind the offset. -/
private theorem DecidedByInput.encodeNested_fills
    (decided : encode.DecidedByInput) (keeps : encode.KeepsLength)
    {offset : Nat} (done : Writer.encodeNested offset encode before = .ok count after) :
    (Writer.encodeNested offset encode).Fills offset (offset + count) count
      after := by
  rw [encodeNested_eq_ok] at done
  rcases done with ⟨within, tail, encoded, _, rfl⟩
  obtain ⟨room, _, alike, refused⟩ := decided _ _ _ encoded
  have tailLength := keeps.of_ok encoded
  have taken : (tail.take count).length = count := by
    rw [List.length_take]
    omega
  constructor
  · intro other roomOther
    have withinOther : offset ≤ other.length := by omega
    have encodedOther := alike (other.drop offset) (by
      rw [List.length_drop]
      omega)
    refine ⟨_, encodeNested_eq_ok.mpr
      ⟨withinOther, _, encodedOther, roomOther, rfl⟩, ?_, ?_⟩
    · rw [Bytes.agreeOn_iff_span, Bytes.span, Bytes.span,
        Bytes.drop_take_append withinOther, Bytes.drop_take_append within,
        List.take_left' taken]
    · exact Bytes.sameOutside_take_append withinOther (List.drop_left' taken)
  · intro other short
    by_cases outside : other.length < offset
    · refine ⟨offset, other.length, other, ?_⟩
      rw [Writer.encodeNested, Bytes.require, if_pos outside]
    · obtain ⟨needed, available, left, fails⟩ :=
        refused (other.drop offset) (by
          rw [List.length_drop]
          omega)
      refine ⟨needed, available, other.take offset ++ left, ?_⟩
      rw [Writer.encodeNested, Bytes.require, if_neg outside]
      simp only [fails]

end Encoder

theorem writeWord_fills
    {offset width : Nat} {order : ByteOrder} {word : UInt64}
    {before after : Bytes} {result : Unit}
    (done :
      Writer.writeWord offset width order word before = .ok result after) :
    (Writer.writeWord offset width order word).Fills offset (offset + width) ()
      after := by
  obtain ⟨_, written⟩ := span_of_writeWord done
  constructor
  · intro other room
    have stored :
        Writer.writeWord offset width order word other =
          .ok () (other.overwrite offset (order.bytesOf width word.toNat)) :=
      writeWord_eq_ok.mpr ⟨room, rfl⟩
    obtain ⟨_, rewritten⟩ := span_of_writeWord stored
    refine ⟨_, stored, ?_, sameOutside_of_writeWord stored⟩
    rw [Bytes.agreeOn_iff_span, rewritten, written]
  · intro other short
    exact ⟨_, _, other, writeWord_eq_error.mpr ⟨short, rfl, rfl⟩⟩

end Writer

/-- What a composite writes is decided by the value it encodes. -/
def Composite.DecidedByInput (target : Composite) (operation : Operation) :
    Prop :=
  ∀ value, (target.encode operation value).DecidedByInput

/-! ## Fields -/

private theorem Storage.encodeAt_fills
    {storage : Storage} {order : ByteOrder} {field : String} {value : Value}
    {cursor width : Nat} {before after : Bytes}
    (lawful : storage.Obeys (fun _ => True) Composite.DecidedByInput)
    (done :
      storage.encodeAt order field value cursor before = .ok width after) :
    (storage.encodeAt order field value cursor).Fills cursor (cursor + width)
      width after := by
  cases storage with
  | integer type =>
      simp only [encodeAt, Writer.bind_eq_ok, Writer.pure_eq_ok,
        Writer.ofExcept_eq_ok] at done
      rcases done with ⟨word, _, ⟨checked, rfl⟩, _, _, wrote, rfl, rfl⟩
      rw [encodeAt, checked]
      exact (Writer.writeWord_fills wrote).map type.width
  | enum declaration underlying =>
      simp only [encodeAt, Writer.bind_eq_ok, Writer.pure_eq_ok,
        Writer.ofExcept_eq_ok] at done
      rcases done with ⟨word, _, ⟨checked, rfl⟩, _, _, wrote, rfl, rfl⟩
      rw [encodeAt, checked]
      exact (Writer.writeWord_fills wrote).map underlying.width
  | composite target operation =>
      exact (lawful value).encodeNested_fills
        (target.encode_keepsLength operation value) done

/-- Fields written one behind the other fill everything between the places where
the cursor starts and where it ends. -/
private theorem StoredField.encodeFields_fills
    {order : ByteOrder} {record : Record} {fields : List StoredField}
    {cursor stop : Nat} {before after : Bytes}
    (lawful :
      ∀ field ∈ fields,
        field.storage.Obeys (fun _ => True) Composite.DecidedByInput)
    (done : encodeFields order record cursor fields before = .ok stop after) :
    (encodeFields order record cursor fields).Fills cursor stop stop after := by
  induction fields generalizing cursor before with
  | nil =>
      rw [encodeFields_nil_eq_ok] at done
      rcases done with ⟨_, rfl, rfl⟩
      constructor
      · intro other room
        refine ⟨other, encodeFields_nil_eq_ok.mpr ⟨room, rfl, rfl⟩, ?_,
          fun _ _ => rfl⟩
        intro index atLeast below
        omega
      · intro other short
        have refused : other.length < cursor + staticWidth [] := short
        exact ⟨_, _, _, encodeFields_of_short refused⟩
  | cons field rest inductionHypothesis =>
      have demanded := (encodeFields_bounds done).1
      rw [encodeFields_cons_eq_ok] at done
      rcases done with ⟨_, value, width, between, found, wrote, walked⟩
      have walkedBounds := encodeFields_bounds walked
      have fillsFirst :=
        Storage.encodeAt_fills (lawful field List.mem_cons_self) wrote
      have fillsRest :=
        inductionHypothesis
          (fun other member => lawful other (List.mem_cons_of_mem _ member))
          walked
      -- The later fields leave the bytes of the first one alone.
      have kept : between.AgreeOn after cursor (cursor + width) :=
        ((fillsRest.of_ok walked).2.2.agreeOn_front cursor).symm
      have joined :
          (field.encodeAt order record cursor >>= fun width =>
              encodeFields order record (cursor + width) rest).Fills
            cursor stop stop after := by
        rw [StoredField.encodeAt, found]
        apply (fillsFirst.congr kept).bind
          (Storage.encodeAt_keepsLength _ _ _ _ _) fillsRest
        · exact Nat.le_add_right _ _
        · omega
      exact joined.behind_require demanded

/-! ## Records -/

namespace RecordCodec

variable {schema : Schema} {registry : Registry} {options : GenerateOptions}
  {codec : RecordCodec} {operation : Operation}

theorem decidedByInput_of_compile
    (compiled : compile schema registry options = .ok codec)
    (components : codec.ComponentsObey Composite.DecidedByInput operation)
    (record : Record) :
    (codec.encode operation record).DecidedByInput := by
  apply Writer.DecidedByInput.of_fills
  intro before count after done
  obtain ⟨variant, serves⟩ := exists_variant_of_encode done
  have enums : codec.types.EnumsAre fun _ => True := fun _ _ _ => trivial
  obtain ⟨stored, _, runs, lawful⟩ :=
    lawfulRun_of_compile compiled serves enums components
  have runsFields :
      codec.encode operation record =
        StoredField.encodeFields variant.order record 0 stored := by
    funext buffer
    exact runs.encode_eq record buffer
  rw [runsFields] at done ⊢
  exact StoredField.encodeFields_fills
    (fun field member => (lawful field member).2) done

theorem toComposite_decidedByInput
    (decided : ∀ record, (codec.encode operation record).DecidedByInput) :
    codec.toComposite.DecidedByInput operation := by
  intro value
  simp only [RecordCodec.toComposite, encodeValue]
  cases value.record? with
  | some record => exact decided record
  | none =>
      intro before count after done
      cases done

/-- What a compiled record writes is decided by the record value, if the same holds
for its components, and the record is again such a component; so it holds for every
record of a catalog that was built over enums alone, however deeply its fields
nest. -/
theorem encode_decided_by_input :
    (∀ schema registry options codec operation,
      compile schema registry options = .ok codec →
        codec.ComponentsObey Composite.DecidedByInput operation →
          (∀ record, (codec.encode operation record).DecidedByInput) ∧
            codec.toComposite.DecidedByInput operation) ∧
      ∀ start catalog,
        start.OnlyEnums →
          Catalog.Reached start catalog →
            catalog.registry.CompositesObey Composite.DecidedByInput ∧
              ∀ codec ∈ catalog.codecs, ∀ operation,
                (∀ record, (codec.encode operation record).DecidedByInput) ∧
                  codec.toComposite.DecidedByInput operation := by
  have inherits :
      ∀ {schema registry options codec},
        compile schema registry options = .ok codec →
          ∀ operation,
            codec.ComponentsObey Composite.DecidedByInput operation →
              (∀ record, (codec.encode operation record).DecidedByInput) ∧
                codec.toComposite.DecidedByInput operation := by
    intro schema registry options codec compiled operation components
    have decided := decidedByInput_of_compile compiled components
    exact ⟨decided, toComposite_decidedByInput decided⟩
  constructor
  · intro schema registry options codec operation compiled components
    exact inherits compiled operation components
  · intro start catalog onlyEnums reached
    exact reached.inherited_of_enums inherits onlyEnums

theorem encode_decided_by_input_of_line :
    ∃ codec,
      compile Drawing.line Drawing.points.registry {} = .ok codec ∧
        codec.encode (.ordered .big) Drawing.greenLine
              [0, 1, 2, 3, 4, 5, 6, 7] =
            .ok 6 [1, 0xFF, 0xFE, 4, 1, 2, 6, 7] ∧
          ∃ needed available left,
            codec.encode (.ordered .big) Drawing.greenLine [0, 0, 0, 0, 0] =
              .error (.bufferTooSmall needed available) left := by
  obtain ⟨codec, compiled⟩ := Drawing.exists_codec_of_line
  have nested :=
    (encode_decided_by_input.2 Drawing.colours Drawing.points
      Drawing.onlyEnums_colours (Catalog.reached_compile _ _ _)).1
  have decided :=
    (encode_decided_by_input.1 _ _ _ codec (.ordered .big) compiled
      (componentsObey_of_compile compiled nested _)).1
  obtain rfl : codec = _ := (Except.ok.inj compiled).symm
  obtain ⟨_, _, alike, refused⟩ :=
    decided Drawing.greenLine [9, 9, 9, 9, 9, 9, 9] 6
      [1, 0xFF, 0xFE, 4, 1, 2, 9] rfl
  refine ⟨_, compiled, ?_, ?_⟩
  · exact alike [0, 1, 2, 3, 4, 5, 6, 7] (by decide)
  · exact refused [0, 0, 0, 0, 0] (by decide)

end RecordCodec

end PackedRecord
