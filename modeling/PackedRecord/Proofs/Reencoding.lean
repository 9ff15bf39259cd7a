import Mathlib.Data.List.Nodup
import PackedRecord.Proofs.ComponentLaw
import PackedRecord.Proofs.StoredInteger

/-!
# Encoding reproduces what was decoded

Decoding keeps everything that the bytes say: whatever was decoded passes the
checks of encoding, and encoding it writes the same bytes again.  Enums are the
exception, since a discriminant is decoded to a name and the name may stand for
another discriminant; so it is demanded of them that it does not.
-/

namespace PackedRecord

/-- The name found for a declared discriminant stands for that discriminant. -/
def EnumDecl.Faithful (declaration : EnumDecl) : Prop :=
  ∀ variant ∈ declaration.variants,
    (declaration.nameOf? variant.2).bind declaration.valueOf? =
      some variant.2

instance (declaration : EnumDecl) : Decidable declaration.Faithful :=
  inferInstanceAs (Decidable (∀ variant ∈ declaration.variants, _))

/-- An enum that gives no name twice is faithful, however many names share a
discriminant. -/
theorem EnumDecl.faithful_of_distinct
    {declaration : EnumDecl}
    (distinct : (declaration.variants.map Prod.fst).Nodup) :
    declaration.Faithful := by
  intro variant member
  have declared :
      (declaration.variants.find? fun other => other.2 == variant.2).isSome := by
    rw [List.find?_isSome]
    exact ⟨variant, member, beq_self_eq_true _⟩
  obtain ⟨entry, found⟩ := Option.isSome_iff_exists.mp declared
  have entryMember := List.mem_of_find?_eq_some found
  have sameValue : entry.2 = variant.2 := by
    have matching := List.find?_some found
    simpa using matching
  have named :
      (declaration.variants.find? fun other => other.1 == entry.1).isSome := by
    rw [List.find?_isSome]
    exact ⟨entry, entryMember, beq_self_eq_true _⟩
  obtain ⟨first, foundFirst⟩ := Option.isSome_iff_exists.mp named
  have sameName : first.1 = entry.1 := by
    have matching := List.find?_some foundFirst
    simpa using matching
  have same : first = entry :=
    List.inj_on_of_nodup_map distinct
      (List.mem_of_find?_eq_some foundFirst) entryMember sameName
  rw [EnumDecl.nameOf?, found, Option.map_some, Option.bind_some,
    EnumDecl.valueOf?, foundFirst, Option.map_some, same, sameValue]

private theorem EnumDecl.Faithful.valueOf_name
    {declaration : EnumDecl} (faithful : declaration.Faithful)
    {discriminant : Int} {name : String}
    (named : declaration.nameOf? discriminant = some name) :
    declaration.valueOf? name = some discriminant := by
  obtain ⟨entry, found, _⟩ := Option.map_eq_some_iff.mp named
  have same : entry.2 = discriminant := by
    have matching := List.find?_some found
    simpa using matching
  have back := faithful entry (List.mem_of_find?_eq_some found)
  rw [same, named] at back
  exact back

/-- Whatever is decoded from some bytes is encoded to the same bytes, into every
buffer with room for them. -/
def Composite.Reencodes (target : Composite) (operation : Operation) : Prop :=
  ∀ (bytes : Bytes) value count,
    target.decode operation bytes = .ok (value, count) →
      count ≤ bytes.length →
        ∀ before : Bytes,
          count ≤ before.length →
            target.encode operation value before =
              .ok count (bytes.take count ++ before.drop count)

/-- Whatever record is decoded from some bytes is encoded to the same bytes, into
every buffer with room for them. -/
def RecordCodec.Reencodes (codec : RecordCodec) (operation : Operation) :
    Prop :=
  ∀ (bytes : Bytes) record count,
    codec.decode operation bytes = .ok (record, count) →
      count ≤ bytes.length ∧
        ∀ before : Bytes,
          count ≤ before.length →
            codec.encode operation record before =
              .ok count (bytes.take count ++ before.drop count)

variable {order : ByteOrder} {cursor : Nat} {buffer before : Bytes}

/-! ## One field -/

namespace Storage

variable {storage : Storage} {value : Value} {width : Nat}

private theorem encodeAt_of_decodeAt
    (sized : storage.Sized)
    (lawful : storage.Obeys EnumDecl.Faithful Composite.Reencodes)
    (done : storage.decodeAt order buffer cursor = .ok (value, width))
    (room : cursor + width ≤ before.length) (field : String) :
    ∃ after,
      storage.encodeAt order field value cursor before = .ok width after ∧
        after.AgreeOn buffer cursor (cursor + width) ∧
          before.SameOutside after cursor (cursor + width) := by
  cases storage with
  | integer type =>
      rw [decodeAt_integer_eq_ok sized] at done
      rcases done with ⟨stored, reads, rfl, rfl⟩
      obtain ⟨after, writes, agree⟩ := reads.exists_writes sized room
      have holds := IntegerType.integer?_valueOf sized writes.1
      refine ⟨after, ?_, agree, writes.sameOutside⟩
      rw [encodeAt_integer_eq_ok]
      exact ⟨stored, holds, writes, rfl⟩
  | enum declaration underlying =>
      rw [decodeAt_enum_eq_ok sized] at done
      rcases done with ⟨stored, name, reads, first, rfl, rfl⟩
      obtain ⟨after, writes, agree⟩ := reads.exists_writes sized room
      have denotes : declaration.Denotes (.variant name) stored :=
        Or.inl ⟨name, rfl, lawful.valueOf_name first⟩
      refine ⟨after, ?_, agree, writes.sameOutside⟩
      rw [encodeAt_enum_eq_ok]
      exact ⟨stored, denotes, writes, rfl⟩
  | composite target operation =>
      rw [decodeAt, Bytes.decodeNested_eq_ok] at done
      rcases done with ⟨within, decoded, inside⟩
      have encoded :=
        lawful _ _ _ decoded (by rw [List.length_drop]; omega)
          (before.drop cursor) (by rw [List.length_drop]; omega)
      have taken : ((buffer.drop cursor).take width).length = width := by
        rw [List.length_take, List.length_drop]
        omega
      have withinBefore : cursor ≤ before.length := by omega
      refine ⟨_, Writer.encodeNested_eq_ok.mpr
        ⟨withinBefore, _, encoded, room, rfl⟩, ?_, ?_⟩
      · rw [Bytes.agreeOn_iff_span, Bytes.span, Bytes.span,
          Bytes.drop_take_append withinBefore, List.take_left' taken]
      · exact Bytes.sameOutside_take_append withinBefore
          (List.drop_left' taken)

end Storage

/-! ## All fields -/

namespace StoredField

variable {fields : List StoredField} {entries record : Record} {stop : Nat}

/-- Decoded fields are encoded one behind the other to the bytes they came from,
out of every record that holds their values. -/
private theorem encodeFields_of_decodeFields
    (lawful :
      ∀ field ∈ fields,
        field.storage.Sized ∧
          field.storage.Obeys EnumDecl.Faithful Composite.Reencodes)
    (done : decodeFields order buffer cursor fields = .ok (entries, stop))
    (holds : ∀ entry ∈ entries, record.get? entry.1 = some entry.2)
    (room : stop ≤ before.length) :
    ∃ after,
      encodeFields order record cursor fields before = .ok stop after ∧
        after.AgreeOn buffer cursor stop ∧
          before.SameOutside after cursor stop := by
  induction fields generalizing cursor entries before with
  | nil =>
      rw [decodeFields_nil_eq_ok] at done
      rcases done with ⟨_, _, rfl⟩
      refine ⟨before, ?_, ?_, fun _ _ => rfl⟩
      · exact encodeFields_nil_eq_ok.mpr ⟨room, rfl, rfl⟩
      · intro index atLeast below
        omega
  | cons field rest inductionHypothesis =>
      have demanded := (decodeFields_bounds done).1
      rw [decodeFields_cons_eq_ok] at done
      rcases done with ⟨_, value, width, others, read, walked, rfl⟩
      have walkedBounds := decodeFields_bounds walked
      obtain ⟨sized, obeys⟩ := lawful field List.mem_cons_self
      obtain ⟨between, wrote, agreeFirst, sameFirst⟩ :=
        Storage.encodeAt_of_decodeAt sized obeys read
          (by omega : cursor + width ≤ before.length) field.name
      have sameLength :=
        (Storage.encodeAt_keepsLength _ _ _ _ _).of_ok wrote
      obtain ⟨after, wroteRest, agreeRest, sameRest⟩ :=
        inductionHypothesis
          (fun other member => lawful other (List.mem_cons_of_mem _ member))
          walked
          (fun entry member => holds entry (List.mem_cons_of_mem _ member))
          (by omega : stop ≤ between.length)
      have found : record.get? field.name = some value :=
        holds _ List.mem_cons_self
      refine ⟨after, ?_, ?_, ?_⟩
      · rw [encodeFields_cons_eq_ok]
        exact ⟨by omega, value, width, between, found, wrote, wroteRest⟩
      · exact ((sameRest.agreeOn_front cursor).trans agreeFirst).append
          agreeRest
      · exact sameFirst.trans sameRest (by omega) (by omega)

end StoredField

/-! ## Records -/

namespace RecordCodec

variable {schema : Schema} {registry : Registry} {options : GenerateOptions}
  {codec : RecordCodec} {operation : Operation}

theorem reencodes_of_compile
    (compiled : compile schema registry options = .ok codec)
    (enums : codec.types.EnumsAre EnumDecl.Faithful)
    (components : codec.ComponentsObey Composite.Reencodes operation) :
    codec.Reencodes operation := by
  intro bytes record count done
  obtain ⟨variant, serves⟩ := exists_variant_of_decode done
  obtain ⟨stored, storedFields, runs, lawful⟩ :=
    lawfulRun_of_compile compiled serves enums components
  rw [runs.decode_eq] at done
  have names := StoredField.names_of_decodeFields done
  have distinct := nodup_names_of_compile compiled
  rw [← StoredField.names_of_storedAs storedFields, ← names] at distinct
  refine ⟨(StoredField.decodeFields_bounds done).2, ?_⟩
  intro before room
  obtain ⟨after, wrote, agree, same⟩ :=
    StoredField.encodeFields_of_decodeFields lawful done
      (fun entry member => Record.get?_of_mem distinct member) room
  rw [runs.encode_eq, wrote, Bytes.eq_append_of_agreeOn agree same]

theorem Reencodes.toComposite (reencodes : codec.Reencodes operation) :
    codec.toComposite.Reencodes operation := by
  intro bytes value count done _ before room
  simp only [RecordCodec.toComposite, bind_eq_ok, pure_eq_ok, Prod.exists,
    Prod.mk.injEq] at done
  rcases done with ⟨record, _, decoded, rfl, rfl⟩
  exact (reencodes bytes record _ decoded).2 before room

/-- A compiled record whose enums are faithful and whose components encode what
they decoded to the same bytes does so itself, and is again such a component; so
every record of a catalog that was built over such enums and composites does,
however deeply its fields nest. -/
theorem encode_reproduces_decoded :
    (∀ schema registry options codec operation,
      compile schema registry options = .ok codec →
        codec.types.EnumsAre EnumDecl.Faithful →
          codec.ComponentsObey Composite.Reencodes operation →
            codec.Reencodes operation ∧
              codec.toComposite.Reencodes operation) ∧
      ∀ start catalog,
        start.EnumsAre EnumDecl.Faithful →
          start.CompositesObey Composite.Reencodes →
            Catalog.Reached start catalog →
              catalog.registry.CompositesObey Composite.Reencodes ∧
                ∀ codec ∈ catalog.codecs, ∀ operation,
                  codec.Reencodes operation ∧
                    codec.toComposite.Reencodes operation := by
  have inherits :
      ∀ {schema registry options codec},
        compile schema registry options = .ok codec →
          codec.types.EnumsAre EnumDecl.Faithful →
            ∀ operation,
              codec.ComponentsObey Composite.Reencodes operation →
                codec.Reencodes operation ∧
                  codec.toComposite.Reencodes operation := by
    intro schema registry options codec compiled enums operation components
    have reencodes := reencodes_of_compile compiled enums components
    exact ⟨reencodes, reencodes.toComposite⟩
  constructor
  · intro schema registry options codec operation compiled enums components
    exact inherits compiled enums operation components
  · intro start catalog enums composites reached
    refine ⟨reached.lawful inherits enums composites, ?_⟩
    intro codec member
    obtain ⟨_, _, _, _, _, holds⟩ :=
      reached.inherited inherits enums composites member
    exact holds

theorem encode_reproduces_decoded_of_line :
    ∃ codec record,
      compile Drawing.line Drawing.points.registry {} = .ok codec ∧
        codec.decode (.ordered .little) [1, 0xFE, 0xFF, 0xFF, 2, 1, 9] =
            .ok (record, 6) ∧
          codec.encode (.ordered .little) record [5, 5, 5, 5, 5, 5, 5, 5] =
            .ok 6 [1, 0xFE, 0xFF, 0xFF, 2, 1, 5, 5] := by
  obtain ⟨codec, compiled⟩ :
      ∃ codec,
        compile Drawing.line Drawing.points.registry {} = .ok codec :=
    ⟨_, rfl⟩
  have enums : Drawing.colours.EnumsAre EnumDecl.Faithful := by
    intro typeName declaration answer
    cases Drawing.get?_colours answer
    decide
  have composites :=
    Drawing.onlyEnums_colours.compositesObey Composite.Reencodes
  have reached : Catalog.Reached Drawing.colours Drawing.points :=
    Catalog.reached_compile _ _ _
  have nested :=
    (encode_reproduces_decoded.2 _ _ enums composites reached).1
  have reencodes :=
    (encode_reproduces_decoded.1 _ _ _ codec (.ordered .little) compiled
      (enumsAre_of_compile compiled (reached.enumsAre enums))
      (componentsObey_of_compile compiled nested _)).1
  obtain rfl : codec = _ := (Except.ok.inj compiled).symm
  refine ⟨_, _, compiled, rfl, ?_⟩
  exact (reencodes [1, 0xFE, 0xFF, 0xFF, 2, 1, 9] _ 6 rfl).2 _ (by decide)

end RecordCodec

end PackedRecord
