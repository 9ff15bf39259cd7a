import PackedRecord.Proofs.StoredInteger
import PackedRecord.Proofs.Shape

/-!
# Well-formed buffers

Which bytes a record accepts is read off its shape: its integers stand one behind
the other, every one of them has room, and every enum among them is stored as a
discriminant that it declares.  Decoding succeeds on exactly these buffers, and
always takes the room of the shape.
-/

namespace PackedRecord

namespace EnumDecl

def Declares (declaration : EnumDecl) (discriminant : Int) : Prop :=
  ∃ variant ∈ declaration.variants, variant.2 = discriminant

instance (declaration : EnumDecl) (discriminant : Int) :
    Decidable (declaration.Declares discriminant) :=
  inferInstanceAs (Decidable (∃ variant ∈ declaration.variants, _))

theorem exists_nameOf?_iff {declaration : EnumDecl} {discriminant : Int} :
    (∃ name, declaration.nameOf? discriminant = some name) ↔
      declaration.Declares discriminant := by
  rw [← Option.isSome_iff_exists, nameOf?, Option.isSome_map,
    List.find?_isSome, Declares]
  simp only [beq_iff_eq]

end EnumDecl

/-! ## Integers at their places -/

namespace Leaf

/-- Leaves with their places, one behind the other. -/
def placed (place : Nat) : List Leaf → List (Nat × Leaf)
  | [] => []
  | leaf :: rest => (place, leaf) :: placed (place + leaf.width) rest

/-- The integer that stands at a place of a buffer as the leaf is stored. -/
def integerAt (buffer : Bytes) (place : Nat) (leaf : Leaf) : Int :=
  leaf.type.denoted (leaf.order.numberOf (buffer.span place leaf.width))

/-- If the leaf is an enum, its place holds a discriminant with the property. -/
def EnumAt (fair : EnumDecl → Int → Prop) (buffer : Bytes) (place : Nat)
    (leaf : Leaf) : Prop :=
  ∀ declaration ∈ leaf.enum?, fair declaration (leaf.integerAt buffer place)

instance (fair : EnumDecl → Int → Prop) [∀ one, DecidablePred (fair one)]
    (buffer : Bytes) (place : Nat) (leaf : Leaf) :
    Decidable (leaf.EnumAt fair buffer place) :=
  inferInstanceAs (Decidable (∀ declaration ∈ leaf.enum?, _))

private theorem placed_append (place : Nat) (first second : List Leaf) :
    placed place (first ++ second) =
      placed place first ++ placed (place + widths first) second := by
  induction first generalizing place with
  | nil => simp [placed]
  | cons leaf rest inductionHypothesis =>
      rw [List.cons_append, placed, placed, inductionHypothesis, widths_cons,
        List.cons_append, Nat.add_assoc]

private theorem placed_map_within
    (place : Nat) (field : String) (leaves : List Leaf) :
    placed place (leaves.map (within field)) =
      (placed place leaves).map fun (start, leaf) =>
        (start, leaf.within field) := by
  induction leaves generalizing place with
  | nil => simp [placed]
  | cons leaf rest inductionHypothesis =>
      have sameWidth : (leaf.within field).width = leaf.width := by
        simp [within, width]
      rw [List.map_cons, placed, placed, List.map_cons, sameWidth,
        inductionHypothesis]

private theorem placed_add (cursor place : Nat) (leaves : List Leaf) :
    placed (cursor + place) leaves =
      (placed place leaves).map fun (start, leaf) => (cursor + start, leaf) := by
  induction leaves generalizing place with
  | nil => simp [placed]
  | cons leaf rest inductionHypothesis =>
      rw [placed, placed, List.map_cons, Nat.add_assoc, inductionHypothesis]

theorem mem_of_mem_placed
    {place : Nat} {leaves : List Leaf} {entry : Nat × Leaf}
    (member : entry ∈ placed place leaves) :
    entry.2 ∈ leaves := by
  induction leaves generalizing place with
  | nil => cases member
  | cons leaf rest inductionHypothesis =>
      rcases List.mem_cons.mp member with rfl | later
      · exact List.mem_cons_self
      · exact List.mem_cons_of_mem _ (inductionHypothesis later)

private theorem enumAt_drop
    (fair : EnumDecl → Int → Prop) (buffer : Bytes) (cursor place : Nat)
    (leaf : Leaf) :
    leaf.EnumAt fair (buffer.drop cursor) place ↔
      leaf.EnumAt fair buffer (cursor + place) := by
  have sameSpan :
      Bytes.span (buffer.drop cursor) place leaf.width =
        buffer.span (cursor + place) leaf.width := by
    rw [Bytes.span, Bytes.span, List.drop_drop]
  simp only [EnumAt, integerAt, sameSpan]

end Leaf

namespace Shape

/-- In a record that starts at a place of a buffer and is stored in the given
order, every enum holds a discriminant with the property. -/
def EnumsAt (fair : EnumDecl → Int → Prop) (shape : Shape) (order : ByteOrder)
    (buffer : Bytes) (place : Nat) : Prop :=
  ∀ entry ∈ Leaf.placed place (shape.leaves order),
    entry.2.EnumAt fair buffer entry.1

instance (fair : EnumDecl → Int → Prop) [∀ one, DecidablePred (fair one)]
    (shape : Shape) (order : ByteOrder) (buffer : Bytes) (place : Nat) :
    Decidable (shape.EnumsAt fair order buffer place) :=
  inferInstanceAs
    (Decidable (∀ entry ∈ Leaf.placed place (shape.leaves order), _))

/-- In a record that starts at a place of a buffer and is stored in the given
order, every enum holds a discriminant that it declares. -/
abbrev DeclaredAt (shape : Shape) (order : ByteOrder) (buffer : Bytes)
    (place : Nat) : Prop :=
  shape.EnumsAt EnumDecl.Declares order buffer place

section EnumsAt

variable {fair : EnumDecl → Int → Prop} {order : ByteOrder} {buffer : Bytes}
  {place : Nat}

@[simp]
theorem enumsAt_done : done.EnumsAt fair order buffer place := by
  intro entry member
  cases member

theorem enumsAt_leaf
    {field : String} {type : IntegerType} {enum? : Option EnumDecl}
    {rest : Shape} :
    (leaf field type enum? rest).EnumsAt fair order buffer place ↔
      Leaf.EnumAt fair buffer place
          { inside := [], field, order, type, enum? } ∧
        rest.EnumsAt fair order buffer (place + type.width) := by
  simp only [EnumsAt, leaves, Leaf.placed, List.forall_mem_cons, Leaf.width]

theorem enumsAt_nested
    {field record : String} {order? : Option ByteOrder} {inner rest : Shape} :
    (nested field record order? inner rest).EnumsAt fair order buffer place ↔
      inner.EnumsAt fair (order?.getD order) buffer place ∧
        rest.EnumsAt fair order buffer (place + inner.size) := by
  simp only [EnumsAt, leaves, Leaf.placed_append, Leaf.placed_map_within,
    Leaf.widths_map_within, widths_leaves, List.forall_mem_append,
    List.forall_mem_map]
  -- A leaf is read alike whichever fields lead to it.
  exact Iff.rfl

theorem enumsAt_drop (shape : Shape) (cursor : Nat) :
    shape.EnumsAt fair order (buffer.drop cursor) place ↔
      shape.EnumsAt fair order buffer (cursor + place) := by
  simp only [EnumsAt, Leaf.placed_add, List.forall_mem_map, Leaf.enumAt_drop]

end EnumsAt

end Shape

/-! ## One field -/

namespace Storage

variable {order : ByteOrder} {buffer : Bytes} {cursor width : Nat}

private theorem exists_decodeAt_ofLeaf
    {type : IntegerType} (sized : type.Sized) (enum? : Option EnumDecl)
    (field : String) :
    (∃ value,
        (ofLeaf type enum?).decodeAt order buffer cursor =
          .ok (value, width)) ↔
      cursor + type.width ≤ buffer.length ∧ width = type.width ∧
        Leaf.EnumAt EnumDecl.Declares buffer cursor
          { inside := [], field, order, type, enum? } := by
  cases enum? with
  | none =>
      simp only [ofLeaf, decodeAt_integer_eq_ok sized, IntegerType.Reads]
      constructor
      · intro done
        obtain ⟨_, _, ⟨inside, _⟩, _, taken⟩ := done
        exact ⟨inside, taken.symm, nofun⟩
      · intro expected
        obtain ⟨inside, taken, _⟩ := expected
        exact ⟨_, _, ⟨inside, rfl⟩, rfl, taken.symm⟩
  | some declaration =>
      have declares :
          Leaf.EnumAt EnumDecl.Declares buffer cursor
              { inside := [], field, order, type, enum? := some declaration } ↔
            ∃ name,
              declaration.nameOf?
                  (type.denoted
                    (order.numberOf (buffer.span cursor type.width))) =
                some name := by
        simp only [Leaf.EnumAt, Option.mem_some_iff, forall_eq',
          EnumDecl.exists_nameOf?_iff, Leaf.integerAt, Leaf.width]
      rw [declares]
      simp only [ofLeaf, decodeAt_enum_eq_ok sized, IntegerType.Reads]
      constructor
      · intro done
        obtain ⟨_, stored, name, ⟨inside, stands⟩, named, _, taken⟩ := done
        rw [← stands] at named
        exact ⟨inside, taken.symm, name, named⟩
      · intro expected
        obtain ⟨inside, taken, name, named⟩ := expected
        exact ⟨_, _, name, ⟨inside, rfl⟩, named, rfl, taken.symm⟩

private theorem exists_decodeAt_record
    {codec : RecordCodec} {operation : Operation} :
    (∃ value,
        (composite codec.toComposite operation).decodeAt order buffer cursor =
          .ok (value, width)) ↔
      cursor + width ≤ buffer.length ∧
        ∃ record,
          codec.decode operation (buffer.drop cursor) = .ok (record, width) := by
  have decodes : ∀ value,
      codec.toComposite.decode operation (buffer.drop cursor) =
          .ok (value, width) ↔
        ∃ record,
          codec.decode operation (buffer.drop cursor) = .ok (record, width) ∧
            .record record = value := by
    intro value
    simp only [RecordCodec.toComposite, bind_eq_ok, pure_eq_ok, Prod.exists,
      Prod.mk.injEq]
    grind
  simp only [decodeAt, Bytes.decodeNested_eq_ok, decodes]
  constructor
  · intro done
    obtain ⟨_, _, ⟨record, decoded, _⟩, inside⟩ := done
    exact ⟨inside, record, decoded⟩
  · intro done
    obtain ⟨inside, record, decoded⟩ := done
    exact ⟨_, by omega, ⟨record, decoded, rfl⟩, inside⟩

end Storage

/-! ## All fields -/

namespace StoredField

variable {order : ByteOrder} {buffer : Bytes} {cursor stop : Nat}

private theorem exists_decodeFields_cons
    {field : StoredField} {rest : List StoredField} :
    (∃ entries,
        decodeFields order buffer cursor (field :: rest) =
          .ok (entries, stop)) ↔
      cursor + staticWidth (field :: rest) ≤ buffer.length ∧
        ∃ width,
          (∃ value,
            field.storage.decodeAt order buffer cursor = .ok (value, width)) ∧
            ∃ others,
              decodeFields order buffer (cursor + width) rest =
                .ok (others, stop) := by
  simp only [decodeFields_cons_eq_ok]
  constructor
  · intro done
    obtain ⟨_, room, value, width, others, read, walked, _⟩ := done
    exact ⟨room, width, ⟨value, read⟩, others, walked⟩
  · intro done
    obtain ⟨room, width, ⟨value, read⟩, others, walked⟩ := done
    exact ⟨_, room, value, width, others, read, walked, rfl⟩

/-- The cursor gets through fields of a shape if there is room for the shape and
every enum is declared, and it then stands behind the shape. -/
private theorem Expands.exists_decodeFields
    {stored : List StoredField} {shape : Shape}
    (expands : Expands order stored shape) :
    (∃ entries,
        decodeFields order buffer cursor stored = .ok (entries, stop)) ↔
      cursor + shape.size ≤ buffer.length ∧ stop = cursor + shape.size ∧
        shape.EnumsAt EnumDecl.Declares order buffer cursor := by
  induction expands generalizing buffer cursor stop with
  | done =>
      simp only [decodeFields_nil_eq_ok, Shape.size, Shape.enumsAt_done,
        and_true]
      grind
  | @leaf order stored shape type name enum? sized rest inductionHypothesis =>
      -- The demand before a field asks for no more than the whole shape takes.
      have demanded := (leaf name enum? sized rest).staticWidth_le_size
      rw [exists_decodeFields_cons, Shape.enumsAt_leaf]
      simp only [Storage.exists_decodeAt_ofLeaf sized enum? name,
        inductionHypothesis]
      rw [Shape.size] at demanded ⊢
      constructor
      · intro done
        obtain ⟨_, width, ⟨_, taken, declared⟩, inside, ended, others⟩ := done
        rw [taken] at inside ended others
        exact ⟨by omega, by omega, declared, others⟩
      · intro expected
        obtain ⟨inside, ended, declared, others⟩ := expected
        exact ⟨by omega, type.width, ⟨by omega, rfl, declared⟩, by omega,
          by omega, others⟩
  | @nested order order? innerStored stored innerShape shape codec operation
      name runs inner rest innerHypothesis restHypothesis =>
      have demanded := (nested name runs inner rest).staticWidth_le_size
      rw [exists_decodeFields_cons, Shape.enumsAt_nested]
      simp only [Storage.exists_decodeAt_record, runs.decode_eq,
        innerHypothesis, restHypothesis, Shape.enumsAt_drop,
        List.length_drop, Nat.zero_add, Nat.add_zero]
      rw [Shape.size] at demanded ⊢
      constructor
      · intro done
        obtain ⟨_, width, ⟨_, _, taken, declared⟩, inside, ended, others⟩ :=
          done
        rw [taken] at inside ended others
        exact ⟨by omega, by omega, declared, others⟩
      · intro expected
        obtain ⟨inside, ended, declared, others⟩ := expected
        exact ⟨by omega, innerShape.size, ⟨by omega, by omega, rfl, declared⟩,
          by omega, by omega, others⟩

end StoredField

namespace RecordCodec

theorem HasShape.decode_eq_ok_iff
    {codec : RecordCodec} {shape : Shape} (has : codec.HasShape shape)
    {operation : Operation} {variant : Variant}
    (serves : codec.variant? operation = some variant) {buffer : Bytes}
    {count : Nat} :
    (∃ record, codec.decode operation buffer = .ok (record, count)) ↔
      shape.size ≤ buffer.length ∧ count = shape.size ∧
        shape.EnumsAt EnumDecl.Declares variant.order buffer 0 := by
  obtain ⟨stored, runs, expands⟩ := has.exists_run serves
  rw [runs.decode_eq, expands.exists_decodeFields, Nat.zero_add]

/-- Every record of a catalog over enums has a shape, with one size for all of its
variants.  The operations that the record offers decode exactly the buffers that
have room for the shape and a declared discriminant for every enum in it, and they
consume the room of the shape. -/
theorem decode_accepts_well_formed
    {start : Registry} {catalog : Catalog} (onlyEnums : start.OnlyEnums)
    (reached : Catalog.Reached start catalog) {codec : RecordCodec}
    (member : codec ∈ catalog.codecs) :
    (∃ shape, codec.HasShape shape) ∧
      ∀ shape,
        codec.HasShape shape →
          (∀ pair ∈ codec.generated.codecs,
            shape.size =
              pair.staticSize + (shape.records.map Shape.size).sum) ∧
            ∀ operation,
              codec.contract.offers operation = true →
                ∃ variant,
                  codec.variant? operation = some variant ∧
                    ∀ buffer,
                      ((∃ result,
                          codec.decode operation buffer = .ok result) ↔
                        shape.size ≤ buffer.length ∧
                          shape.DeclaredAt variant.order buffer 0) ∧
                        ∀ record count,
                          codec.decode operation buffer =
                              .ok (record, count) →
                            count = shape.size := by
  refine ⟨reached.exists_shape onlyEnums member, ?_⟩
  intro shape has
  refine ⟨fun pair => has.size_eq, ?_⟩
  intro operation offered
  obtain ⟨variant, serves⟩ := offers_iff_exists_variant.mp offered
  refine ⟨variant, serves, ?_⟩
  intro buffer
  constructor
  · constructor
    · intro succeeds
      obtain ⟨⟨record, count⟩, decoded⟩ := succeeds
      have accepted := (has.decode_eq_ok_iff serves).mp ⟨record, decoded⟩
      exact ⟨accepted.1, accepted.2.2⟩
    · intro wellFormed
      obtain ⟨room, declared⟩ := wellFormed
      obtain ⟨record, decoded⟩ :=
        (has.decode_eq_ok_iff serves).mpr ⟨room, rfl, declared⟩
      exact ⟨(record, shape.size), decoded⟩
  · intro record count decoded
    have accepted := (has.decode_eq_ok_iff serves).mp ⟨record, decoded⟩
    exact accepted.2.1

/-- A line is decoded in big-endian order if its colour is declared. -/
theorem decode_accepts_well_formed_line :
    ∃ codec ∈ Drawing.lines.codecs,
      codec.HasShape Drawing.lineShape ∧
        (∃ record,
          codec.decode (.ordered .big) [1, 0, 5, 4, 0, 9, 8] =
            .ok (record, 6)) ∧
          ¬∃ result,
            codec.decode (.ordered .big) [1, 0, 5, 3, 0, 9, 8] = .ok result := by
  obtain ⟨codec, member, compiled, has⟩ := Drawing.exists_codec_of_lineShape
  obtain ⟨_, accepts⟩ :=
    decode_accepts_well_formed Drawing.onlyEnums_colours
      (Catalog.reached_compile _ _ _) member
  obtain ⟨_, decodes⟩ := accepts Drawing.lineShape has
  have offered := Drawing.offers_ordered_of_line compiled .big
  obtain ⟨variant, serves, accepted⟩ := decodes (.ordered .big) offered
  have order : variant.order = .big := by
    cases compiled
    cases serves
    rfl
  rw [order] at accepted
  refine ⟨codec, member, has, ?_, ?_⟩
  · obtain ⟨succeeds, consumes⟩ := accepted [1, 0, 5, 4, 0, 9, 8]
    have wellFormed :
        Drawing.lineShape.DeclaredAt .big [1, 0, 5, 4, 0, 9, 8] 0 := by
      decide
    obtain ⟨⟨record, count⟩, decoded⟩ :=
      succeeds.mpr ⟨by decide, wellFormed⟩
    have size : count = 6 := consumes record count decoded
    rw [size] at decoded
    exact ⟨record, decoded⟩
  · obtain ⟨succeeds, _⟩ := accepted [1, 0, 5, 3, 0, 9, 8]
    have undeclared :
        ¬Drawing.lineShape.DeclaredAt .big [1, 0, 5, 3, 0, 9, 8] 0 := by
      decide
    intro succeeded
    exact undeclared (succeeds.mp succeeded).2

end RecordCodec

end PackedRecord
