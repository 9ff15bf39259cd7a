import PackedRecord.Proofs.ComponentLaw
import PackedRecord.Proofs.StoredInteger

/-!
# Decoding depends on the consumed bytes alone

A composite is handed everything that is left of the buffer, so its result could
depend on bytes behind those that it reports.  If no component does that, no record
does: two buffers with the same consumed bytes are decoded alike, and a buffer that
ends among them is refused for being too small.

Both are shown by running the cursor over two buffers at once.  As long as both
hold the bytes of a field the runs stay together; where one of them ends, it is
stopped by a demand, by the field itself, or inside a composite, and each of them
complains of the same thing.
-/

namespace PackedRecord

namespace Bytes

/-- The bytes that a decoder consumes decide its result: buffers that begin with
them are decoded alike, and buffers that end among them are too small. -/
def DecidedByConsumed {result : Type}
    (decode : Bytes → Except CodecError (result × Nat)) : Prop :=
  ∀ bytes value count,
    decode bytes = .ok (value, count) →
      count ≤ bytes.length ∧
        (∀ other : Bytes,
          count ≤ other.length →
            other.take count = bytes.take count →
              decode other = .ok (value, count)) ∧
          ∀ shorter,
            shorter < count →
              ∃ needed available,
                decode (bytes.take shorter) =
                  .error (.bufferTooSmall needed available)

end Bytes

/-- The bytes that a composite's decoder consumes decide its result. -/
def Composite.DecidedByConsumed (target : Composite) (operation : Operation) :
    Prop :=
  Bytes.DecidedByConsumed (target.decode operation)

variable {order : ByteOrder} {cursor : Nat} {buffer other : Bytes}

/-! ## Buffers that are too small -/

namespace Bytes

section Nested

variable {result : Type} {decode : Bytes → Except CodecError (result × Nat)}

private theorem decodeNested_of_short (short : buffer.length < cursor) :
    buffer.decodeNested cursor decode =
      .error (.bufferTooSmall cursor buffer.length) := by
  unfold decodeNested Bytes.require
  rw [if_pos short]
  rfl

private theorem decodeNested_of_error
    (inside : cursor ≤ buffer.length) {cause : CodecError}
    (fails : decode (buffer.drop cursor) = .error cause) :
    buffer.decodeNested cursor decode = .error cause := by
  unfold decodeNested Bytes.require
  rw [if_neg (Nat.not_lt.mpr inside)]
  show (decode (buffer.drop cursor) >>= _) = _
  rw [fails]
  rfl

end Nested

end Bytes

/-! ## One field on two buffers -/

namespace Storage

variable {storage : Storage} {value : Value} {width : Nat}

private theorem decodeAt_of_agreeOn
    (sized : storage.Sized)
    (lawful : storage.Obeys (fun _ => True) Composite.DecidedByConsumed)
    (done : storage.decodeAt order buffer cursor = .ok (value, width))
    (inside : cursor + width ≤ other.length)
    (agree : other.AgreeOn buffer cursor (cursor + width)) :
    storage.decodeAt order other cursor = .ok (value, width) := by
  cases storage with
  | integer type =>
      rw [decodeAt_integer_eq_ok sized] at done ⊢
      rcases done with ⟨stored, reads, loaded, rfl⟩
      exact ⟨stored, reads.of_agreeOn inside agree, loaded, rfl⟩
  | enum declaration underlying =>
      rw [decodeAt_enum_eq_ok sized] at done ⊢
      rcases done with ⟨stored, name, reads, first, same, rfl⟩
      exact ⟨stored, name, reads.of_agreeOn inside agree, first, same, rfl⟩
  | composite target operation =>
      rw [decodeAt, Bytes.decodeNested_eq_ok] at done ⊢
      rcases done with ⟨_, decoded, _⟩
      have room : width ≤ (other.drop cursor).length := by
        rw [List.length_drop]
        omega
      have sameResult :=
        (lawful _ _ _ decoded).2.1 (other.drop cursor) room
          (Bytes.agreeOn_iff_span.mp agree)
      exact ⟨by omega, sameResult, inside⟩

private theorem decodeAt_of_truncated
    (sized : storage.Sized)
    (lawful : storage.Obeys (fun _ => True) Composite.DecidedByConsumed)
    (done : storage.decodeAt order buffer cursor = .ok (value, width))
    (short : other.length < cursor + width)
    (agree : other.AgreeOn buffer cursor other.length) :
    ∃ needed available,
      storage.decodeAt order other cursor =
        .error (.bufferTooSmall needed available) := by
  cases storage with
  | integer type =>
      rw [decodeAt_integer_eq_ok sized] at done
      rcases done with ⟨_, _, _, rfl⟩
      have lacking :
          other.readWord cursor type.width order =
            .error (other.lackOfRoom cursor type.width) :=
        Bytes.readWord_eq_error.mpr ⟨short, rfl⟩
      rw [decodeAt, lacking]
      exact ⟨_, _, rfl⟩
  | enum declaration underlying =>
      rw [decodeAt_enum_eq_ok sized] at done
      rcases done with ⟨_, _, _, _, _, rfl⟩
      have lacking :
          other.readWord cursor underlying.width order =
            .error (other.lackOfRoom cursor underlying.width) :=
        Bytes.readWord_eq_error.mpr ⟨short, rfl⟩
      rw [decodeAt, lacking]
      exact ⟨_, _, rfl⟩
  | composite target operation =>
      rw [decodeAt, Bytes.decodeNested_eq_ok] at done
      rcases done with ⟨_, decoded, _⟩
      by_cases outside : other.length < cursor
      · exact ⟨_, _, Bytes.decodeNested_of_short outside⟩
      · have within : cursor ≤ other.length := Nat.le_of_not_lt outside
        -- The composite is handed a part of the bytes that it consumed.
        have part :
            other.drop cursor =
              (buffer.drop cursor).take (other.length - cursor) := by
          have same := @Bytes.agreeOn_iff_span other buffer cursor
            (other.length - cursor)
          rw [Nat.add_sub_cancel' within] at same
          have spans := same.mp agree
          unfold Bytes.span at spans
          rw [← spans, List.take_of_length_le]
          exact Nat.le_of_eq List.length_drop
        obtain ⟨needed, available, fails⟩ :=
          (lawful _ _ _ decoded).2.2 (other.length - cursor) (by omega)
        rw [← part] at fails
        exact ⟨needed, available, Bytes.decodeNested_of_error within fails⟩

end Storage

/-! ## All fields on two buffers -/

namespace StoredField

variable {fields : List StoredField} {entries : Record} {stop : Nat}
  (lawful :
    ∀ field ∈ fields,
      field.storage.Sized ∧
        field.storage.Obeys (fun _ => True) Composite.DecidedByConsumed)
  (done : decodeFields order buffer cursor fields = .ok (entries, stop))
include lawful done

private theorem decodeFields_of_agreeOn
    (inside : stop ≤ other.length) (agree : other.AgreeOn buffer cursor stop) :
    decodeFields order other cursor fields = .ok (entries, stop) := by
  induction fields generalizing cursor entries with
  | nil =>
      rw [decodeFields_nil_eq_ok] at done ⊢
      rcases done with ⟨_, same, rfl⟩
      exact ⟨inside, same, rfl⟩
  | cons field rest inductionHypothesis =>
      have demanded := (decodeFields_bounds done).1
      rw [decodeFields_cons_eq_ok] at done ⊢
      rcases done with ⟨_, value, width, others, read, walked, same⟩
      have walkedBounds := decodeFields_bounds walked
      obtain ⟨sized, obeys⟩ := lawful field List.mem_cons_self
      have readOther :=
        Storage.decodeAt_of_agreeOn sized obeys read
          (by omega : cursor + width ≤ other.length)
          (agree.within (Nat.le_refl _) (by omega))
      have walkedOther :=
        inductionHypothesis
          (fun later member => lawful later (List.mem_cons_of_mem _ member))
          walked (agree.within (Nat.le_add_right _ _) (Nat.le_refl _))
      exact ⟨by omega, value, width, others, readOther, walkedOther, same⟩

private theorem decodeFields_of_truncated
    (short : other.length < stop)
    (agree : other.AgreeOn buffer cursor other.length) :
    ∃ needed available,
      decodeFields order other cursor fields =
        .error (.bufferTooSmall needed available) := by
  induction fields generalizing cursor entries with
  | nil =>
      rw [decodeFields_nil_eq_ok] at done
      rcases done with ⟨_, _, rfl⟩
      have refused : other.length < cursor + staticWidth [] := short
      exact ⟨_, _, decodeFields_of_short refused⟩
  | cons field rest inductionHypothesis =>
      by_cases room :
          cursor + staticWidth (field :: rest) ≤ other.length
      · rw [decodeFields_cons_eq_ok] at done
        rcases done with ⟨_, value, width, others, read, walked, _⟩
        obtain ⟨sized, obeys⟩ := lawful field List.mem_cons_self
        rw [decodeFields_cons_of_room room]
        by_cases here : other.length < cursor + width
        · obtain ⟨needed, available, fails⟩ :=
            Storage.decodeAt_of_truncated sized obeys read here agree
          exact ⟨needed, available, by rw [fails]; rfl⟩
        · have inside : cursor + width ≤ other.length := Nat.le_of_not_lt here
          have readOther :=
            Storage.decodeAt_of_agreeOn sized obeys read inside
              (agree.within (Nat.le_refl _) inside)
          obtain ⟨needed, available, fails⟩ :=
            inductionHypothesis
              (fun later member => lawful later (List.mem_cons_of_mem _ member))
              walked (agree.within (Nat.le_add_right _ _) (Nat.le_refl _))
          refine ⟨needed, available, ?_⟩
          rw [readOther]
          show (decodeFields order other (cursor + width) rest >>= _) = _
          rw [fails]
          rfl
      · exact ⟨_, _, decodeFields_of_short (Nat.lt_of_not_le room)⟩

end StoredField

/-! ## Records -/

namespace RecordCodec

variable {schema : Schema} {registry : Registry} {options : GenerateOptions}
  {codec : RecordCodec} {operation : Operation}

theorem decidedByConsumed_of_compile
    (compiled : compile schema registry options = .ok codec)
    (components : codec.ComponentsObey Composite.DecidedByConsumed operation) :
    Bytes.DecidedByConsumed (codec.decode operation) := by
  intro bytes record count done
  obtain ⟨variant, serves⟩ := exists_variant_of_decode done
  have enums : codec.types.EnumsAre fun _ => True := fun _ _ _ => trivial
  obtain ⟨stored, _, runs, lawful⟩ :=
    lawfulRun_of_compile compiled serves enums components
  rw [runs.decode_eq] at done
  have inside := (StoredField.decodeFields_bounds done).2
  refine ⟨inside, ?_, ?_⟩
  · intro other room same
    rw [runs.decode_eq]
    exact StoredField.decodeFields_of_agreeOn lawful done room
      (Bytes.agreeOn_iff_take.mpr same)
  · intro shorter less
    have length : (bytes.take shorter).length = shorter := by
      rw [List.length_take]
      omega
    have agree : Bytes.AgreeOn (bytes.take shorter) bytes 0 shorter := by
      rw [Bytes.agreeOn_iff_take, List.take_take, Nat.min_self]
    rw [runs.decode_eq]
    apply StoredField.decodeFields_of_truncated lawful done
    · rw [length]
      exact less
    · rw [length]
      exact agree

theorem toComposite_decidedByConsumed
    (decided : Bytes.DecidedByConsumed (codec.decode operation)) :
    codec.toComposite.DecidedByConsumed operation := by
  intro bytes value count done
  simp only [RecordCodec.toComposite, bind_eq_ok, pure_eq_ok, Prod.exists,
    Prod.mk.injEq] at done
  rcases done with ⟨record, _, decoded, rfl, rfl⟩
  obtain ⟨inside, others, truncated⟩ := decided bytes record _ decoded
  refine ⟨inside, ?_, ?_⟩
  · intro other room same
    simp only [RecordCodec.toComposite, others other room same]
    rfl
  · intro shorter less
    obtain ⟨needed, available, fails⟩ := truncated shorter less
    exact ⟨needed, available, by
      simp only [RecordCodec.toComposite, fails]
      rfl⟩

/-- The consumed bytes decide what a compiled record decodes, if they do so for its
components, and the record is again such a component; so they do for every record
of a catalog that was built over enums alone, however deeply its fields nest. -/
theorem decode_decided_by_consumed :
    (∀ schema registry options codec operation,
      compile schema registry options = .ok codec →
        codec.ComponentsObey Composite.DecidedByConsumed operation →
          Bytes.DecidedByConsumed (codec.decode operation) ∧
            codec.toComposite.DecidedByConsumed operation) ∧
      ∀ start catalog,
        start.OnlyEnums →
          Catalog.Reached start catalog →
            catalog.registry.CompositesObey Composite.DecidedByConsumed ∧
              ∀ codec ∈ catalog.codecs, ∀ operation,
                Bytes.DecidedByConsumed (codec.decode operation) ∧
                  codec.toComposite.DecidedByConsumed operation := by
  have inherits :
      ∀ {schema registry options codec},
        compile schema registry options = .ok codec →
          codec.types.EnumsAre (fun _ => True) →
            ∀ operation,
              codec.ComponentsObey Composite.DecidedByConsumed operation →
                Bytes.DecidedByConsumed (codec.decode operation) ∧
                  codec.toComposite.DecidedByConsumed operation := by
    intro schema registry options codec compiled _ operation components
    have decided := decidedByConsumed_of_compile compiled components
    exact ⟨decided, toComposite_decidedByConsumed decided⟩
  constructor
  · intro schema registry options codec operation compiled components
    exact inherits compiled (fun _ _ _ => trivial) operation components
  · intro start catalog onlyEnums reached
    have enums : start.EnumsAre fun _ => True := fun _ _ _ => trivial
    have composites := onlyEnums.compositesObey Composite.DecidedByConsumed
    refine ⟨reached.lawful inherits enums composites, ?_⟩
    intro codec member
    obtain ⟨_, _, _, _, _, holds⟩ :=
      reached.inherited inherits enums composites member
    exact holds

theorem decode_decided_by_consumed_of_line :
    ∃ codec record,
      compile Drawing.line Drawing.points.registry {} = .ok codec ∧
        codec.decode (.ordered .big) [1, 0, 5, 4, 0, 9, 8, 8] =
            .ok (record, 6) ∧
          codec.decode (.ordered .big) [1, 0, 5, 4, 0, 9] = .ok (record, 6) ∧
            ∃ needed available,
              codec.decode (.ordered .big) [1, 0, 5, 4, 0] =
                .error (.bufferTooSmall needed available) := by
  obtain ⟨codec, compiled⟩ :
      ∃ codec,
        compile Drawing.line Drawing.points.registry {} = .ok codec :=
    ⟨_, rfl⟩
  have nested :=
    (decode_decided_by_consumed.2 Drawing.colours Drawing.points
      Drawing.onlyEnums_colours (Catalog.reached_compile _ _ _)).1
  have decided :=
    (decode_decided_by_consumed.1 _ _ _ codec (.ordered .big) compiled
      (componentsObey_of_compile compiled nested _)).1
  obtain rfl : codec = _ := (Except.ok.inj compiled).symm
  obtain ⟨_, others, truncated⟩ :=
    decided [1, 0, 5, 4, 0, 9, 8, 8] _ 6 rfl
  refine ⟨_, _, compiled, rfl, ?_, ?_⟩
  · exact others [1, 0, 5, 4, 0, 9] (by decide) rfl
  · exact truncated 5 (by decide)

end RecordCodec

end PackedRecord
