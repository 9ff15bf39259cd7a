import PackedRecord.Proofs.ComponentLaw
import PackedRecord.Proofs.StoredInteger

/-!
# Decoding undoes encoding

Encoding writes into a buffer whose old content shows through everywhere else,
and a composite is handed the whole rest of it.  What is proved here is that each
field writes only where it stands, so that nothing written later disturbs it, and
that decoding finds every field again.

The value that comes back is not always the one that was given: an integer comes
back in its type's kind of value, and an enum by the first name declared for its
discriminant.
-/

namespace PackedRecord

namespace Composite

/-- Whenever the given value is encoded, the bytes written, with whatever
follows them, are decoded to the other value; and no other byte was changed. -/
def Restores (target : Composite) (operation : Operation)
    (given decoded : Value) : Prop :=
  ∀ before count after,
    target.encode operation given before = .ok count after →
      after.drop count = before.drop count ∧
        ∀ bytes : Bytes,
          count ≤ bytes.length →
            bytes.take count = after.take count →
              target.decode operation bytes = .ok (decoded, count)

/-- What is decoded after an encoding depends only on the value encoded. -/
def RoundTrips (target : Composite) (operation : Operation) : Prop :=
  ∀ given, ∃ decoded, target.Restores operation given decoded

end Composite

/-- The value that comes back from a field for a given one. -/
inductive Storage.Restores : Storage → Value → Value → Prop
  | unsigned {type : IntegerType} {given : Value} {word : UInt64}
      (isUnsigned : type.signed = false)
      (same : given.integer? = some (word.toNat : Int)) :
      Restores (.integer type) given (.unsigned word)
  | signed {type : IntegerType} {given : Value} {word : Int64}
      (isSigned : type.signed = true)
      (same : given.integer? = some word.toInt) :
      Restores (.integer type) given (.signed word)
  | enum {declaration : EnumDecl} {underlying : IntegerType} {given : Value}
      {discriminant : Int} {name : String}
      (denotes : declaration.Denotes given discriminant)
      (first : declaration.nameOf? discriminant = some name) :
      Restores (.enum declaration underlying) given (.variant name)
  | composite {target : Composite} {operation : Operation}
      {given decoded : Value}
      (restores : target.Restores operation given decoded) :
      Restores (.composite target operation) given decoded

/-- An entry of a decoded record is what comes back for a field of another
record. -/
def Field.Restores (registry : Registry) (variant : Variant) (record : Record)
    (field : Field) (entry : String × Value) : Prop :=
  entry.1 = field.name ∧
    ∃ storage given,
      field.storage? registry variant = some storage ∧
        record.get? field.name = some given ∧
          storage.Restores given entry.2

/-- For every record there is one that comes back whenever the record is encoded:
it has the schema's fields, and it is decoded from the bytes written with whatever
follows them. -/
def RecordCodec.RoundTrips (codec : RecordCodec) (schema : Schema)
    (registry : Registry) (operation : Operation) : Prop :=
  ∀ record, ∃ decoded,
    ∀ before count after,
      codec.encode operation record before = .ok count after →
        count ≤ before.length ∧
          after.drop count = before.drop count ∧
            (∃ variant,
              codec.variant? operation = some variant ∧
                List.Forall₂ (Field.Restores registry variant record)
                  schema.fields decoded) ∧
              ∀ bytes : Bytes,
                count ≤ bytes.length →
                  bytes.take count = after.take count →
                    codec.decode operation bytes = .ok (decoded, count)

/-! ## One field -/

namespace Storage

variable {storage : Storage} {order : ByteOrder} {field : String}
  {given decoded : Value} {cursor width : Nat} {before after : Bytes}

/-- An integer comes back as the type's kind of value that holds it. -/
private theorem Restores.eq_valueOf
    {type : IntegerType} {stored : Int}
    (restores : (integer type).Restores given decoded)
    (holds : given.integer? = some stored) :
    type.valueOf stored = decoded := by
  unfold IntegerType.valueOf
  cases restores with
  | @unsigned _ _ word isUnsigned same =>
      obtain rfl : stored = (word.toNat : Int) :=
        Option.some.inj (holds.symm.trans same)
      simp [isUnsigned, IntegerType.ofInt_toNat]
  | @signed _ _ word isSigned same =>
      obtain rfl : stored = word.toInt :=
        Option.some.inj (holds.symm.trans same)
      simp [isSigned]

/-- Whatever was encoded, some value comes back for it. -/
theorem exists_restores
    (sized : storage.Sized)
    (lawful : storage.Obeys (fun _ => True) Composite.RoundTrips)
    (done : storage.encodeAt order field given cursor before = .ok width after) :
    ∃ decoded, storage.Restores given decoded := by
  cases storage with
  | integer type =>
      rw [encodeAt_integer_eq_ok] at done
      rcases done with ⟨stored, holds, writes, _⟩
      have kept := IntegerType.integer?_valueOf sized writes.1
      rw [← holds] at kept
      unfold IntegerType.valueOf at kept
      cases sign : type.signed with
      | false =>
          rw [sign] at kept
          exact ⟨_, .unsigned sign kept.symm⟩
      | true =>
          rw [sign] at kept
          exact ⟨_, .signed sign kept.symm⟩
  | enum declaration underlying =>
      rw [encodeAt_enum_eq_ok] at done
      rcases done with ⟨stored, denotes, _⟩
      obtain ⟨name, first⟩ := denotes.declared
      exact ⟨_, .enum denotes first⟩
  | composite target operation =>
      obtain ⟨decoded, restores⟩ := lawful given
      exact ⟨decoded, .composite restores⟩

/-- A field that was written changes no byte elsewhere, and its value comes back
from every buffer with the same bytes at its place. -/
theorem Restores.decodeAt
    (sized : storage.Sized) (restores : storage.Restores given decoded)
    (done : storage.encodeAt order field given cursor before = .ok width after) :
    before.SameOutside after cursor (cursor + width) ∧
      ∀ bytes : Bytes,
        cursor + width ≤ bytes.length →
          bytes.AgreeOn after cursor (cursor + width) →
            storage.decodeAt order bytes cursor = .ok (decoded, width) := by
  cases storage with
  | integer type =>
      rw [encodeAt_integer_eq_ok] at done
      rcases done with ⟨stored, holds, writes, rfl⟩
      refine ⟨writes.sameOutside, ?_⟩
      intro bytes inside agree
      rw [decodeAt_integer_eq_ok sized]
      exact ⟨stored, writes.reads sized inside agree,
        restores.eq_valueOf holds, rfl⟩
  | enum declaration underlying =>
      rw [encodeAt_enum_eq_ok] at done
      rcases done with ⟨stored, denotesStored, writes, rfl⟩
      refine ⟨writes.sameOutside, ?_⟩
      intro bytes inside agree
      rw [decodeAt_enum_eq_ok sized]
      cases restores with
      | @enum _ _ _ discriminant name denotes first =>
          rw [denotes.unique denotesStored] at first
          exact ⟨stored, name, writes.reads sized inside agree, first, rfl,
            rfl⟩
  | composite target operation =>
      rw [encodeAt, Writer.encodeNested_eq_ok] at done
      rcases done with ⟨within, tail, encoded, _, rfl⟩
      cases restores with
      | composite restores =>
          obtain ⟨kept, decodes⟩ := restores _ _ _ encoded
          refine ⟨Bytes.sameOutside_take_append within kept, ?_⟩
          intro bytes inside agree
          rw [Bytes.agreeOn_iff_span, Bytes.span, Bytes.span,
            Bytes.drop_take_append within] at agree
          rw [Storage.decodeAt, Bytes.decodeNested_eq_ok]
          refine ⟨by omega, decodes _ ?_ agree, inside⟩
          rw [List.length_drop]
          omega

end Storage

/-! ## All fields -/

namespace StoredField

variable {order : ByteOrder} {record decoded : Record}
  {fields : List StoredField} {cursor stop : Nat} {before after : Bytes}

/-- An entry of a decoded record is what comes back for a stored field of another
record. -/
def Restores (record : Record) (field : StoredField)
    (entry : String × Value) : Prop :=
  entry.1 = field.name ∧
    ∃ given,
      record.get? field.name = some given ∧
        field.storage.Restores given entry.2

theorem exists_restores
    (lawful :
      ∀ field ∈ fields,
        field.storage.Sized ∧
          field.storage.Obeys (fun _ => True) Composite.RoundTrips)
    (done : encodeFields order record cursor fields before = .ok stop after) :
    ∃ decoded, List.Forall₂ (Restores record) fields decoded := by
  induction fields generalizing cursor before with
  | nil => exact ⟨[], List.Forall₂.nil⟩
  | cons field rest inductionHypothesis =>
      rw [encodeFields_cons_eq_ok] at done
      rcases done with ⟨_, given, width, between, found, wrote, walked⟩
      obtain ⟨sized, obeys⟩ := lawful field List.mem_cons_self
      obtain ⟨value, restores⟩ := Storage.exists_restores sized obeys wrote
      obtain ⟨others, restoresRest⟩ :=
        inductionHypothesis
          (fun other member => lawful other (List.mem_cons_of_mem _ member))
          walked
      exact ⟨(field.name, value) :: others,
        List.Forall₂.cons ⟨rfl, given, found, restores⟩ restoresRest⟩

/-- Fields written one behind the other do not disturb each other, and all come
back from every buffer with the same bytes. -/
private theorem decodeFields_of_restores
    (sized : ∀ field ∈ fields, field.storage.Sized)
    (restores : List.Forall₂ (Restores record) fields decoded)
    (done : encodeFields order record cursor fields before = .ok stop after) :
    before.SameOutside after cursor stop ∧
      ∀ bytes : Bytes,
        stop ≤ bytes.length →
          bytes.AgreeOn after cursor stop →
            decodeFields order bytes cursor fields = .ok (decoded, stop) := by
  induction restores generalizing cursor before with
  | nil =>
      rw [encodeFields_nil_eq_ok] at done
      rcases done with ⟨_, rfl, rfl⟩
      refine ⟨fun _ _ => rfl, ?_⟩
      intro bytes inside _
      exact decodeFields_nil_eq_ok.mpr ⟨inside, rfl, rfl⟩
  | @cons field entry rest entries first _ inductionHypothesis =>
      rw [encodeFields_cons_eq_ok] at done
      rcases done with ⟨_, given, width, between, found, wrote, walked⟩
      rcases first with ⟨named, value, foundValue, restoresFirst⟩
      obtain rfl : given = value :=
        Option.some.inj (found.symm.trans foundValue)
      obtain ⟨sameFirst, readsFirst⟩ :=
        restoresFirst.decodeAt (sized field List.mem_cons_self) wrote
      obtain ⟨sameRest, readsRest⟩ :=
        inductionHypothesis
          (fun other member => sized other (List.mem_cons_of_mem _ member))
          walked
      have walkedBounds := encodeFields_bounds walked
      refine ⟨sameFirst.trans sameRest (by omega) (by omega), ?_⟩
      intro bytes inside agree
      -- What the later fields wrote lies behind this one.
      have agreeFirst : bytes.AgreeOn between cursor (cursor + width) :=
        (agree.within (Nat.le_refl _) (by omega)).trans
          (sameRest.agreeOn_front cursor)
      have agreeRest : bytes.AgreeOn after (cursor + width) stop :=
        agree.within (Nat.le_add_right _ _) (Nat.le_refl _)
      have read := readsFirst bytes (by omega) agreeFirst
      have walkedBack := readsRest bytes inside agreeRest
      have atLeast := (Storage.decodeAt_bounds read).2
      rw [decodeFields_cons_eq_ok]
      refine ⟨?_, entry.2, width, entries, read, walkedBack, ?_⟩
      · rw [staticWidth_cons]
        omega
      · rw [← named]

theorem fieldsRestore_of_stored
    {registry : Registry} {variant : Variant} {declared : List Field}
    (storedFields :
      List.Forall₂ (Field.StoredAs registry variant) declared fields)
    (restores : List.Forall₂ (Restores record) fields decoded) :
    List.Forall₂ (Field.Restores registry variant record) declared decoded := by
  induction storedFields generalizing decoded with
  | nil =>
      cases restores
      exact List.Forall₂.nil
  | cons storedAs _ inductionHypothesis =>
      cases restores with
      | cons first rest =>
          rcases storedAs with ⟨sameName, stored⟩
          rcases first with ⟨named, given, found, restoresFirst⟩
          rw [sameName] at named found
          exact List.Forall₂.cons ⟨named, _, given, stored, found, restoresFirst⟩
            (inductionHypothesis rest)

end StoredField

/-! ## Records -/

namespace RecordCodec

variable {schema : Schema} {registry : Registry} {options : GenerateOptions}
  {codec : RecordCodec} {operation : Operation}

theorem roundTrips_of_compile
    (compiled : compile schema registry options = .ok codec)
    (components : codec.ComponentsObey Composite.RoundTrips operation) :
    codec.RoundTrips schema registry operation := by
  intro record
  by_cases succeeds :
      ∃ before count after,
        codec.encode operation record before = .ok count after
  · rcases succeeds with ⟨_, _, _, done⟩
    obtain ⟨variant, serves⟩ := exists_variant_of_encode done
    have enums : codec.types.EnumsAre fun _ => True := fun _ _ _ => trivial
    obtain ⟨stored, storedFields, runs, lawful⟩ :=
      lawfulRun_of_compile compiled serves enums components
    rw [runs.encode_eq] at done
    obtain ⟨decoded, restores⟩ := StoredField.exists_restores lawful done
    refine ⟨decoded, ?_⟩
    intro before count after encoded
    rw [runs.encode_eq] at encoded
    obtain ⟨same, decodes⟩ :=
      StoredField.decodeFields_of_restores
        (fun field member => (lawful field member).1) restores encoded
    have bounds := StoredField.encodeFields_bounds encoded
    refine ⟨bounds.2, same.drop_eq, ⟨variant, serves, ?_⟩, ?_⟩
    · exact StoredField.fieldsRestore_of_stored storedFields restores
    · intro bytes inside agree
      rw [runs.decode_eq]
      exact decodes bytes inside (Bytes.agreeOn_iff_take.mpr agree)
  · refine ⟨[], ?_⟩
    intro before count after done
    exact absurd ⟨before, count, after, done⟩ succeeds

theorem RoundTrips.toComposite
    (roundTrips : codec.RoundTrips schema registry operation) :
    codec.toComposite.RoundTrips operation := by
  intro given
  cases isRecord : given.record? with
  | none =>
      refine ⟨given, ?_⟩
      intro before count after done
      simp only [RecordCodec.toComposite, encodeValue, isRecord] at done
      cases done
  | some record =>
      obtain ⟨decoded, restores⟩ := roundTrips record
      refine ⟨.record decoded, ?_⟩
      intro before count after done
      simp only [RecordCodec.toComposite, encodeValue, isRecord] at done
      obtain ⟨_, kept, _, decodes⟩ := restores before count after done
      refine ⟨kept, ?_⟩
      intro bytes inside agree
      simp only [RecordCodec.toComposite, decodes bytes inside agree]
      rfl

/-- A compiled record whose components round-trip does so itself, and is again such
a component; so every record of a catalog that was built over enums alone
round-trips, however deeply its fields nest. -/
theorem decode_undoes_encode :
    (∀ schema registry options codec operation,
      compile schema registry options = .ok codec →
        codec.ComponentsObey Composite.RoundTrips operation →
          codec.RoundTrips schema registry operation ∧
            codec.toComposite.RoundTrips operation) ∧
      ∀ start catalog,
        start.OnlyEnums →
          Catalog.Reached start catalog →
            catalog.registry.CompositesObey Composite.RoundTrips ∧
              ∀ codec ∈ catalog.codecs,
                ∃ earlier schema options,
                  Catalog.Reached start earlier ∧
                    compile schema earlier.registry options = .ok codec ∧
                      ∀ operation,
                        codec.RoundTrips schema earlier.registry operation ∧
                          codec.toComposite.RoundTrips operation := by
  have inherits :
      ∀ {schema registry options codec},
        compile schema registry options = .ok codec →
          codec.types.EnumsAre (fun _ => True) →
            ∀ operation,
              codec.ComponentsObey Composite.RoundTrips operation →
                codec.RoundTrips schema registry operation ∧
                  codec.toComposite.RoundTrips operation := by
    intro schema registry options codec compiled _ operation components
    have roundTrips := roundTrips_of_compile compiled components
    exact ⟨roundTrips, roundTrips.toComposite⟩
  constructor
  · intro schema registry options codec operation compiled components
    exact inherits compiled (fun _ _ _ => trivial) operation components
  · intro start catalog onlyEnums reached
    have enums : start.EnumsAre fun _ => True := fun _ _ _ => trivial
    have composites := onlyEnums.compositesObey Composite.RoundTrips
    exact ⟨reached.lawful inherits enums composites,
      fun codec member => reached.inherited inherits enums composites member⟩

theorem decode_undoes_encode_of_line :
    ∃ codec decoded,
      compile Drawing.line Drawing.points.registry {} = .ok codec ∧
        codec.decode (.ordered .big) [1, 0xFF, 0xFE, 0xFF, 1, 2, 7, 7] =
          .ok (decoded, 6) := by
  obtain ⟨codec, compiled⟩ :
      ∃ codec,
        compile Drawing.line Drawing.points.registry {} = .ok codec :=
    ⟨_, rfl⟩
  have nested :=
    (decode_undoes_encode.2 Drawing.colours Drawing.points
      Drawing.onlyEnums_colours (Catalog.reached_compile _ _ _)).1
  have roundTrips :=
    (decode_undoes_encode.1 _ _ _ codec (.ordered .big) compiled
      (componentsObey_of_compile compiled nested _)).1
  obtain ⟨decoded, restores⟩ :=
    roundTrips
      [("length", .signed 258),
        ("start", .record [("colour", .text "crimson"), ("x", .signed (-2))]),
        ("dashed", .unsigned 1)]
  obtain rfl : codec = _ := (Except.ok.inj compiled).symm
  obtain ⟨_, _, _, decodes⟩ :=
    restores [0, 0, 0, 0, 0, 0, 5] 6 [1, 0xFF, 0xFE, 0xFF, 1, 2, 5] rfl
  exact ⟨_, decoded, compiled, decodes _ (by decide) rfl⟩

end RecordCodec

end PackedRecord
