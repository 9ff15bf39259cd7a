import PackedRecord.Proofs.Compilation

/-!
# Procedures run like the cursor

A procedure knows where each field starts only through an offset and a table of
reported lengths, and it demands room only at its start and behind composites.
This module shows that a run of a compiled procedure is the run of the cursor
over the stored fields, with the same result or the same error.

The invariant of the simulation is `Offset.Follows`: the offset of the next field
names exactly the lengths in the table, so it evaluates to where the cursor stands;
and what was last demanded is the cursor's place plus the room known to be needed
from there on, so the cursor's own demand cannot fail before a field that is no
composite's successor.
-/

namespace PackedRecord

/-! ## Offsets over a table of lengths -/

namespace Offset

/-- The offset adds exactly the first lengths of a table, in order. -/
def Covers (offset : Offset) (count : Nat) : Prop :=
  offset.lengths = (List.range count).map LengthVar.mk

theorem Covers.length_lengths
    {offset : Offset} {count : Nat} (covers : offset.Covers count) :
    offset.lengths.length = count := by
  rw [covers, List.length_map, List.length_range]

theorem Covers.plus
    {offset : Offset} {count : Nat} (covers : offset.Covers count) :
    (offset.plus { index := count }).Covers (count + 1) := by
  unfold Covers at covers ⊢
  rw [Offset.plus, covers, List.range_succ, List.map_append]
  rfl

private theorem Covers.plus_appended
    {offset : Offset} {reported : List Nat}
    (covers : offset.Covers reported.length) (width : Nat) :
    (offset.plus { index := reported.length }).Covers
      (reported ++ [width]).length := by
  rw [List.length_append, List.length_singleton]
  exact covers.plus

/-- An offset that covers a table is its base plus every length of the table. -/
private theorem Covers.sum_eq
    {offset : Offset} {reported : List Nat}
    (covers : offset.Covers reported.length) :
    offset.sum reported = offset.base + reported.sum := by
  have table :
      (List.range reported.length).map (fun index => reported.getD index 0) =
        reported := by
    apply List.ext_getElem
    · simp
    · intro index _ inside
      simp [inside]
  rw [sum, reportedLengths, covers, List.map_map]
  congr 2

/-- With one more composite behind it, an offset grows by the reported length. -/
private theorem Covers.sum_plus_appended
    {offset : Offset} {reported : List Nat}
    (covers : offset.Covers reported.length) (width : Nat) :
    (offset.plus { index := reported.length }).sum (reported ++ [width]) =
      offset.sum reported + width := by
  rw [(covers.plus_appended width).sum_eq, covers.sum_eq, List.sum_append,
    List.sum_singleton, ← Nat.add_assoc]
  rfl

theorem sum_after_static
    (offset : Offset) (bytes : Nat) (reported : List Nat) :
    (offset.after (.static bytes)).sum reported =
      offset.sum reported + bytes := by
  simp only [after, past, sum, reportedLengths]
  omega

end Offset

/-- The statically known room is added to the base, and nothing else is. -/
theorem Layout.Places.base_stop
    {types : Registry} {order : ByteOrder} {start stop : Offset}
    {placed : List PlacedField} {stored : List StoredField}
    (places : Layout.Places types order start placed stored stop) :
    stop.base = start.base + StoredField.staticWidth stored := by
  induction places with
  | nil start => simp
  | cons name reaches rest inductionHypothesis =>
      rw [inductionHypothesis, StoredField.staticWidth_cons]
      cases reaches <;>
        simp [Access.width, Offset.after, Offset.past, Offset.plus, Storage.staticWidth,
          IntegerType.byte, Nat.add_assoc]

namespace Storage

/-- The table of lengths after a field has taken some room. -/
def reported (lengths : List Nat) (width : Nat) : Storage → List Nat
  | integer _ => lengths
  | enum _ _ => lengths
  | composite _ _ => lengths ++ [width]

/-- Whether the storage always takes the room known without data. -/
def IsStatic : Storage → Prop
  | integer _ => True
  | enum _ _ => True
  | composite _ _ => False

theorem IsStatic.reported
    {storage : Storage} (static : storage.IsStatic) (lengths : List Nat)
    (width : Nat) : storage.reported lengths width = lengths := by
  cases storage with
  | composite target operation => exact static.elim
  | _ => rfl

private theorem IsStatic.width_of_decodeAt
    {storage : Storage} (static : storage.IsStatic) {order : ByteOrder}
    {buffer : Bytes} {cursor width : Nat} {value : Value}
    (done : storage.decodeAt order buffer cursor = .ok (value, width)) :
    width = storage.staticWidth := by
  cases storage with
  | composite target operation => exact static.elim
  | _ =>
      simp only [decodeAt, bind_eq_ok, pure_eq_ok, Prod.mk.injEq] at done
      grind [staticWidth]

private theorem IsStatic.width_of_encodeAt
    {storage : Storage} (static : storage.IsStatic) {order : ByteOrder}
    {field : String} {before after : Bytes} {cursor width : Nat} {value : Value}
    (done :
      storage.encodeAt order field value cursor before = .ok width after) :
    width = storage.staticWidth := by
  cases storage with
  | composite target operation => exact static.elim
  | _ =>
      simp only [encodeAt, Writer.bind_eq_ok, Writer.pure_eq_ok] at done
      grind [staticWidth]

end Storage

/-- An access that reports no length goes to a storage of static width, and one
that reports a length goes to a composite. -/
theorem Access.Reaches.static_or_composite
    {types : Registry} {order : ByteOrder} {next : Nat} {access : Access}
    {storage : Storage} (reaches : access.Reaches types order next storage) :
    (storage.IsStatic ∧ access.length? = none ∧
        access.width = .static storage.staticWidth) ∨
      ∃ target operation,
        storage = .composite target operation ∧
          access.length? = some { index := next } ∧
            access.width = .reported { index := next } := by
  cases reaches with
  | composite operation found => exact Or.inr ⟨_, _, rfl, rfl, rfl⟩
  | _ => exact Or.inl ⟨trivial, rfl, rfl⟩

/-! ## The invariant -/

/-- An offset and a demanded size follow the cursor before some stored fields:
both add all lengths reported so far, and the demanded size adds what is known to
be needed for the fields. -/
structure Offset.Follows (start demanded : Offset) (lengths : List Nat)
    (stored : List StoredField) : Prop where
  startCovers : start.Covers lengths.length
  demandCovers : demanded.Covers lengths.length
  known : demanded.base = start.base + StoredField.staticWidth stored

namespace Offset.Follows

variable {start demanded : Offset} {lengths : List Nat} {name : String}
  {storage : Storage} {stored : List StoredField}

theorem sum_demanded (follows : start.Follows demanded lengths stored) :
    demanded.sum lengths =
      start.sum lengths + StoredField.staticWidth stored := by
  have known := follows.known
  rw [follows.startCovers.sum_eq, follows.demandCovers.sum_eq]
  omega

theorem past_static
    (follows : start.Follows demanded lengths ({ name, storage } :: stored)) :
    (start.after (.static storage.staticWidth)).Follows demanded lengths
      stored := by
  refine ⟨follows.startCovers, follows.demandCovers, ?_⟩
  have known := follows.known
  rw [StoredField.staticWidth_cons] at known
  simp only [after, past] at known ⊢
  omega

theorem past_composite
    {target : Composite} {operation : Operation}
    (follows :
      start.Follows demanded lengths
        ({ name, storage := .composite target operation } :: stored))
    (width : Nat) :
    (start.plus { index := lengths.length }).Follows
      (demanded.plus { index := lengths.length }) (lengths ++ [width])
      stored := by
  refine ⟨follows.startCovers.plus_appended width,
    follows.demandCovers.plus_appended width, ?_⟩
  have known := follows.known
  rw [StoredField.staticWidth_cons, Storage.staticWidth, Nat.zero_add] at known
  exact known

theorem sum_demanded_past_composite
    {target : Composite} {operation : Operation}
    (follows :
      start.Follows demanded lengths
        ({ name, storage := .composite target operation } :: stored))
    (width : Nat) :
    (demanded.plus { index := lengths.length }).sum (lengths ++ [width]) =
      start.sum lengths + width + StoredField.staticWidth stored := by
  rw [(follows.past_composite width).sum_demanded,
    follows.startCovers.sum_plus_appended]

end Offset.Follows

/-! ## One field -/

section Field

variable {codec : RecordCodec} {order : ByteOrder} {next : Nat}
  {access : Access} {storage : Storage}

private theorem readWord_single (buffer : Bytes) (offset : Nat) (order : ByteOrder) :
    buffer.readWord offset 1 .little = buffer.readWord offset 1 order := by
  cases order with
  | little => rfl
  | big =>
      have single : ∀ bytes : Bytes, bytes.length ≤ 1 →
          ByteOrder.big.numberOf bytes = ByteOrder.little.numberOf bytes := by
        intro bytes short
        match bytes, short with
        | [], _ => rfl
        | [_], _ => rfl
      have short : (buffer.span offset 1).length ≤ 1 := by
        rw [Bytes.span]
        exact List.length_take_le _ _
      unfold Bytes.readWord
      rw [single _ short]

private theorem writeWord_single (offset : Nat) (order : ByteOrder) (word : UInt64) :
    Writer.writeWord offset 1 .little word =
      Writer.writeWord offset 1 order word := by
  cases order <;> rfl

/-- Decoding a placed field is reading its storage at the value of its offset. -/
theorem RecordCodec.readField_eq
    (reaches : access.Reaches codec.types order next storage)
    (buffer : Bytes) (lengths : List Nat) (name : String) (offset : Offset) :
    codec.readField buffer lengths { name, access, offset } =
      storage.decodeAt order buffer (offset.sum lengths) >>=
        fun (value, width) =>
          .ok (value, storage.reported lengths width) := by
  cases reaches with
  | integer type =>
      simp only [readField, Storage.decodeAt, bind_assoc]
      rfl
  | byte signed =>
      simp only [readField, Storage.decodeAt, bind_assoc,
        readWord_single _ _ order]
      rfl
  | enum underlying found =>
      simp only [readField, Storage.decodeAt, bind_assoc, RecordCodec.enum,
        found]
      rfl
  | composite operation found =>
      simp only [readField, Storage.decodeAt, RecordCodec.composite, found]
      rfl

/-- Encoding a placed field is writing its storage at the value of its offset. -/
theorem RecordCodec.writeField_eq
    (reaches : access.Reaches codec.types order next storage)
    (lengths : List Nat) (name : String) (offset : Offset) (value : Value) :
    codec.writeField lengths { name, access, offset } value =
      storage.encodeAt order name value (offset.sum lengths) >>=
        fun width => pure (storage.reported lengths width) := by
  cases reaches with
  | integer type =>
      simp only [writeField, Storage.encodeAt, bind_assoc]
      rfl
  | byte signed =>
      simp only [writeField, Storage.encodeAt, bind_assoc,
        writeWord_single _ order]
      rfl
  | enum underlying found =>
      simp only [writeField, Storage.encodeAt, bind_assoc, RecordCodec.enum,
        found]
      rfl
  | composite operation found =>
      simp only [writeField, Storage.encodeAt, RecordCodec.composite, found]
      rfl

end Field

/-! ## All fields -/

namespace StoredField

variable {order : ByteOrder} {cursor : Nat}

theorem decodeFields_of_short
    {buffer : Bytes} {fields : List StoredField}
    (short : buffer.length < cursor + staticWidth fields) :
    decodeFields order buffer cursor fields =
      .error
        (.bufferTooSmall (cursor + staticWidth fields) buffer.length) := by
  cases fields with
  | nil =>
      rw [staticWidth_nil, Nat.add_zero] at short ⊢
      rw [decodeFields, Bytes.require, if_pos short]
      rfl
  | cons field rest =>
      rw [decodeFields, Bytes.require, if_pos short]
      rfl

theorem decodeFields_cons_of_room
    {buffer : Bytes} {field : StoredField} {rest : List StoredField}
    (room : cursor + staticWidth (field :: rest) ≤ buffer.length) :
    decodeFields order buffer cursor (field :: rest) =
      field.storage.decodeAt order buffer cursor >>= fun (value, width) =>
        decodeFields order buffer (cursor + width) rest >>=
          fun (entries, stop) => .ok ((field.name, value) :: entries, stop) := by
  rw [decodeFields, Bytes.require, if_neg (Nat.not_lt.mpr room)]
  rfl

theorem encodeFields_of_short
    {record : Record} {before : Bytes} {fields : List StoredField}
    (short : before.length < cursor + staticWidth fields) :
    encodeFields order record cursor fields before =
      .error (.bufferTooSmall (cursor + staticWidth fields) before.length)
        before := by
  have refused :
      Writer.require (cursor + staticWidth fields) before =
        .error (.bufferTooSmall (cursor + staticWidth fields) before.length)
          before := by
    unfold Writer.require Bytes.require
    rw [if_pos short]
    rfl
  cases fields with
  | nil =>
      rw [staticWidth_nil, Nat.add_zero] at refused ⊢
      rw [encodeFields, Writer.bind_apply, refused]
  | cons field rest => rw [encodeFields, Writer.bind_apply, refused]

theorem encodeFields_cons_of_room
    {record : Record} {before : Bytes} {field : StoredField}
    {rest : List StoredField}
    (room : cursor + staticWidth (field :: rest) ≤ before.length) :
    encodeFields order record cursor (field :: rest) before =
      (field.encodeAt order record cursor >>= fun width =>
        encodeFields order record (cursor + width) rest) before := by
  have passed :
      Writer.require (cursor + staticWidth (field :: rest)) before =
        .ok () before :=
    Writer.require_eq_ok.mpr ⟨room, rfl⟩
  rw [encodeFields, Writer.bind_apply, passed]

end StoredField

namespace RecordCodec

section Simulation

variable {codec : RecordCodec} {order : ByteOrder} {start stop : Offset}
  {placed : List PlacedField} {stored : List StoredField}

private theorem decodeStatement_read
    {next : Nat} {access : Access} {storage : Storage}
    (reaches : access.Reaches codec.types order next storage)
    (buffer : Bytes) (state : DecodeState) (name : String) (offset : Offset) :
    codec.decodeStatement buffer state (.read { name, access, offset }) =
      storage.decodeAt order buffer (offset.sum state.lengths) >>=
        fun (value, width) =>
          .ok
            { state with
              lengths := storage.reported state.lengths width
              locals := state.locals ++ [(name, value)] } := by
  unfold decodeStatement
  simp only [readField_eq reaches, bind_assoc]
  rfl

theorem decodeStatement_require
    (codec : RecordCodec) (buffer : Bytes) (state : DecodeState)
    (size : Offset) :
    codec.decodeStatement buffer state (.require size) =
      if buffer.length < size.sum state.lengths then
        .error (.bufferTooSmall (size.sum state.lengths) buffer.length)
      else
        .ok state := by
  simp only [decodeStatement, Bytes.require]
  split <;> rfl

private theorem entries_behind
    (walked : Except CodecError (Record × Nat)) (locals : Record)
    (entry : String × Value) :
    (walked >>= fun (entries, size) =>
        .ok (locals ++ [entry] ++ entries, size)) =
      (walked >>= fun (entries, size) => .ok (entry :: entries, size)) >>=
        fun (entries, size) =>
          (.ok (locals ++ entries, size) : Except CodecError (Record × Nat)) := by
  cases walked with
  | error cause => rfl
  | ok found =>
      show Except.ok (locals ++ [entry] ++ found.1, found.2) =
        .ok (locals ++ entry :: found.1, found.2)
      rw [List.append_assoc, List.singleton_append]

/-- From an offset to an offset, the part of a decode procedure that belongs to some placed
fields runs like the cursor over stored fields. -/
def DecodesLike (codec : RecordCodec) (order : ByteOrder) (buffer : Bytes)
    (start : Offset) (placed : List PlacedField) (stored : List StoredField)
    (stop : Offset) : Prop :=
  ∀ (demanded : Offset) (state : DecodeState),
    start.Follows demanded state.lengths stored →
      demanded.sum state.lengths ≤ buffer.length →
        ((Direction.decode.touchAll demanded placed).foldlM
            (codec.decodeStatement buffer) state >>= fun last =>
          .ok (last.locals, stop.sum last.lengths)) =
          StoredField.decodeFields order buffer (start.sum state.lengths)
              stored >>= fun (entries, size) =>
            .ok (state.locals ++ entries, size)

/-- Nothing is demanded behind a field of static width, and no length is added. -/
private theorem DecodesLike.cons_static
    {buffer : Bytes} {next : Nat} {access : Access} {storage : Storage}
    {name : String}
    (behind :
      codec.DecodesLike order buffer (start.after (.static storage.staticWidth))
        placed stored stop)
    (reaches : access.Reaches codec.types order next storage)
    (static : storage.IsStatic) (noLength : access.length? = none) :
    codec.DecodesLike order buffer start
      ({ name, access, offset := start } :: placed)
      ({ name, storage } :: stored) stop := by
  intro demanded state follows room
  have demandedHere := follows.sum_demanded
  have reads := decodeStatement_read reaches buffer state name start
  simp only [static.reported] at reads
  rw [StoredField.decodeFields_cons_of_room (by omega)]
  simp only [Direction.touchAll, noLength, Direction.touch, List.foldlM_cons,
    reads]
  cases outcome : storage.decodeAt order buffer (start.sum state.lengths) with
  | error cause => rfl
  | ok found =>
      obtain ⟨value, width⟩ := found
      have walked :=
        behind demanded { state with locals := state.locals ++ [(name, value)] }
          follows.past_static room
      rw [Offset.sum_after_static, ← static.width_of_decodeAt outcome] at walked
      exact walked.trans (entries_behind _ state.locals (name, value))

/-- The room that is demanded behind a composite is what the cursor demands there. -/
private theorem DecodesLike.cons_composite
    {buffer : Bytes} {access : Access} {target : Composite}
    {operation : Operation} {name : String}
    (behind :
      codec.DecodesLike order buffer
        (start.plus { index := start.lengths.length }) placed stored stop)
    (reaches :
      access.Reaches codec.types order start.lengths.length
        (.composite target operation))
    (length : access.length? = some { index := start.lengths.length }) :
    codec.DecodesLike order buffer start
      ({ name, access, offset := start } :: placed)
      ({ name, storage := .composite target operation } :: stored) stop := by
  intro demanded state follows room
  have demandedHere := follows.sum_demanded
  have reads := decodeStatement_read reaches buffer state name start
  simp only [Storage.reported] at reads
  rw [follows.startCovers.length_lengths] at length behind
  rw [StoredField.decodeFields_cons_of_room (by omega)]
  simp only [Direction.touchAll, length, Direction.touch, List.foldlM_cons, reads]
  cases outcome :
      (Storage.composite target operation).decodeAt order buffer
        (start.sum state.lengths) with
  | error cause => rfl
  | ok found =>
      obtain ⟨value, width⟩ := found
      let grown : DecodeState :=
        { state with
          lengths := state.lengths ++ [width]
          locals := state.locals ++ [(name, value)] }
      have demandedNext := follows.sum_demanded_past_composite width
      have demands :=
        decodeStatement_require codec buffer grown
          (demanded.plus { index := state.lengths.length })
      rw [demandedNext] at demands
      refine Eq.trans ?_ (entries_behind _ state.locals (name, value))
      show ((codec.decodeStatement buffer grown _ >>= _) >>= _) = _
      rw [demands]
      by_cases short :
          buffer.length <
            start.sum state.lengths + width + StoredField.staticWidth stored
      · rw [if_pos short, StoredField.decodeFields_of_short short]
        rfl
      · have walked :=
          behind _ grown (follows.past_composite width)
            (by rw [demandedNext]; omega)
        rw [follows.startCovers.sum_plus_appended width] at walked
        rw [if_neg short]
        exact walked

private theorem decodesLike_of_places
    (places : Layout.Places codec.types order start placed stored stop)
    (buffer : Bytes) :
    codec.DecodesLike order buffer start placed stored stop := by
  induction places with
  | nil start =>
      intro demanded state follows room
      rw [follows.sum_demanded, StoredField.staticWidth_nil,
        Nat.add_zero] at room
      rw [StoredField.decodeFields, Bytes.require, if_neg (by omega)]
      show Except.ok (state.locals, start.sum state.lengths) = .ok _
      rw [List.append_nil]
  | cons name reaches rest behind =>
      rcases reaches.static_or_composite with
        ⟨static, noLength, takes⟩ | ⟨target, operation, rfl, length, takes⟩
      · rw [takes] at behind
        exact behind.cons_static reaches static noLength
      · rw [takes] at behind
        exact behind.cons_composite reaches length

private theorem encodeStatement_write
    {next : Nat} {access : Access} {storage : Storage}
    (reaches : access.Reaches codec.types order next storage)
    (record : Record) (lengths : List Nat) (name : String) (offset : Offset) :
    codec.encodeStatement record lengths (.write { name, access, offset }) =
      StoredField.encodeAt order record (offset.sum lengths)
          { name, storage } >>= fun width =>
        pure (storage.reported lengths width) := by
  simp only [encodeStatement, StoredField.encodeAt]
  cases record.get? name with
  | none => rfl
  | some value => exact writeField_eq reaches lengths name offset value

theorem encodeStatement_require
    (codec : RecordCodec) (record : Record) (lengths : List Nat)
    (size : Offset) (before : Bytes) :
    codec.encodeStatement record lengths (.require size) before =
      if before.length < size.sum lengths then
        .error (.bufferTooSmall (size.sum lengths) before.length) before
      else
        .ok lengths before := by
  by_cases short : before.length < size.sum lengths
  · simp only [encodeStatement, Writer.bind_apply, Writer.require,
      Bytes.require, if_pos short]
    rfl
  · simp only [encodeStatement, Writer.bind_apply, Writer.require,
      Bytes.require, if_neg short]
    rfl

/-- From an offset to an offset, the part of an encode procedure that belongs to some placed
fields runs like the cursor over stored fields. -/
def EncodesLike (codec : RecordCodec) (order : ByteOrder) (record : Record)
    (start : Offset) (placed : List PlacedField) (stored : List StoredField)
    (stop : Offset) : Prop :=
  ∀ (demanded : Offset) (lengths : List Nat) (before : Bytes),
    start.Follows demanded lengths stored →
      demanded.sum lengths ≤ before.length →
        ((Direction.encode.touchAll demanded placed).foldlM
            (codec.encodeStatement record) lengths >>= fun last =>
          pure (stop.sum last)) before =
          StoredField.encodeFields order record (start.sum lengths) stored
            before

section Steps

variable {record : Record} {access : Access} {name : String}

/-- Nothing is demanded behind a field of static width, and no length is added. -/
private theorem EncodesLike.cons_static
    {next : Nat} {storage : Storage}
    (behind :
      codec.EncodesLike order record (start.after (.static storage.staticWidth))
        placed stored stop)
    (reaches : access.Reaches codec.types order next storage)
    (static : storage.IsStatic) (noLength : access.length? = none) :
    codec.EncodesLike order record start
      ({ name, access, offset := start } :: placed)
      ({ name, storage } :: stored) stop := by
  intro demanded lengths before follows room
  have demandedHere := follows.sum_demanded
  have writes := encodeStatement_write reaches record lengths name start
  rw [StoredField.encodeFields_cons_of_room (by omega),
    Writer.bind_apply (StoredField.encodeAt _ _ _ _)]
  simp only [Direction.touchAll, noLength, Direction.touch, List.foldlM_cons,
    writes, bind_assoc, pure_bind, static.reported]
  rw [Writer.bind_apply (StoredField.encodeAt _ _ _ _)]
  cases outcome :
      StoredField.encodeAt order record (start.sum lengths) { name, storage }
        before with
  | error cause after => rfl
  | ok width between =>
      have sameLength :=
        (StoredField.encodeAt_keepsLength _ _ _ _).of_ok outcome
      have taken : width = storage.staticWidth := by
        obtain ⟨value, _, wrote⟩ := StoredField.encodeAt_eq_ok.mp outcome
        exact static.width_of_encodeAt wrote
      have walked :=
        behind demanded lengths between follows.past_static (by omega)
      rw [Offset.sum_after_static, ← taken] at walked
      exact walked

/-- The room that is demanded behind a composite is what the cursor demands there. -/
private theorem EncodesLike.cons_composite
    {target : Composite} {operation : Operation}
    (behind :
      codec.EncodesLike order record
        (start.plus { index := start.lengths.length }) placed stored stop)
    (reaches :
      access.Reaches codec.types order start.lengths.length
        (.composite target operation))
    (length : access.length? = some { index := start.lengths.length }) :
    codec.EncodesLike order record start
      ({ name, access, offset := start } :: placed)
      ({ name, storage := .composite target operation } :: stored) stop := by
  intro demanded lengths before follows room
  have demandedHere := follows.sum_demanded
  have writes := encodeStatement_write reaches record lengths name start
  rw [follows.startCovers.length_lengths] at length behind
  rw [StoredField.encodeFields_cons_of_room (by omega),
    Writer.bind_apply (StoredField.encodeAt _ _ _ _)]
  simp only [Direction.touchAll, length, Direction.touch, List.foldlM_cons,
    writes, bind_assoc, pure_bind, Storage.reported]
  rw [Writer.bind_apply (StoredField.encodeAt _ _ _ _)]
  cases outcome :
      StoredField.encodeAt order record (start.sum lengths)
        { name, storage := .composite target operation } before with
  | error cause after => rfl
  | ok width between =>
      have sameLength :=
        (StoredField.encodeAt_keepsLength _ _ _ _).of_ok outcome
      have demandedNext := follows.sum_demanded_past_composite width
      have demands :=
        encodeStatement_require codec record (lengths ++ [width])
          (demanded.plus { index := lengths.length }) between
      rw [demandedNext] at demands
      simp only
      rw [Writer.bind_apply (codec.encodeStatement _ _ _), demands]
      by_cases short :
          between.length <
            start.sum lengths + width + StoredField.staticWidth stored
      · rw [if_pos short, StoredField.encodeFields_of_short short]
      · have walked :=
          behind _ (lengths ++ [width]) between (follows.past_composite width)
            (by rw [demandedNext]; omega)
        rw [follows.startCovers.sum_plus_appended width] at walked
        rw [if_neg short]
        exact walked

end Steps

private theorem encodesLike_of_places
    (places : Layout.Places codec.types order start placed stored stop)
    (record : Record) :
    codec.EncodesLike order record start placed stored stop := by
  induction places with
  | nil start =>
      intro demanded lengths before follows room
      rw [follows.sum_demanded, StoredField.staticWidth_nil,
        Nat.add_zero] at room
      have passed :
          Writer.require (start.sum lengths) before = .ok () before :=
        Writer.require_eq_ok.mpr ⟨room, rfl⟩
      rw [StoredField.encodeFields, Writer.bind_apply (Writer.require _),
        passed]
      rfl
  | cons name reaches rest behind =>
      rcases reaches.static_or_composite with
        ⟨static, noLength, takes⟩ | ⟨target, operation, rfl, length, takes⟩
      · rw [takes] at behind
        exact behind.cons_static reaches static noLength
      · rw [takes] at behind
        exact behind.cons_composite reaches length

end Simulation

/-- An operation runs like the cursor over some stored fields. -/
structure RunsLike (codec : RecordCodec) (operation : Operation)
    (order : ByteOrder) (stored : List StoredField) : Prop where
  decode_eq : ∀ buffer,
    codec.decode operation buffer =
      StoredField.decodeFields order buffer 0 stored
  encode_eq : ∀ record before,
    codec.encode operation record before =
      StoredField.encodeFields order record 0 stored before

theorem runsLike_of_places
    {codec : RecordCodec} {operation : Operation} {layout : Layout}
    {naming : Naming} {stored : List StoredField}
    (answers :
      codec.generated.pair? operation = some (layout.emit naming))
    (places :
      Layout.Places codec.types layout.variant.order {} layout.fields stored
        layout.total) :
    codec.RunsLike operation layout.variant.order stored := by
  have known : layout.staticSize = 0 + StoredField.staticWidth stored :=
    places.base_stop
  have follows :
      ({} : Offset).Follows (.constant layout.staticSize) [] stored :=
    ⟨rfl, rfl, known⟩
  constructor
  · intro buffer
    have demands :=
      decodeStatement_require codec buffer {} (.constant layout.staticSize)
    rw [Offset.sum_constant, known] at demands
    simp only [decode, pair, answers]
    show
      (List.foldlM (codec.decodeStatement buffer) {}
          (layout.procedure naming .decode).body >>= fun state =>
        .ok (state.record, layout.total.sum state.lengths)) = _
    simp only [Layout.procedure, Direction.closing, List.foldlM_cons,
      List.foldlM_append, bind_assoc, known, demands]
    by_cases short : buffer.length < 0 + StoredField.staticWidth stored
    · rw [if_pos short, StoredField.decodeFields_of_short short]
      rfl
    · have walked :=
        decodesLike_of_places places buffer (.constant layout.staticSize) {}
          follows (by rw [Offset.sum_constant]; omega)
      rw [known] at walked
      rw [if_neg short]
      refine Eq.trans walked ?_
      show
        (StoredField.decodeFields layout.variant.order buffer 0 stored >>= _) =
          _
      cases StoredField.decodeFields layout.variant.order buffer 0 stored <;>
        rfl
  · intro record before
    have demands :=
      encodeStatement_require codec record [] (.constant layout.staticSize)
        before
    rw [Offset.sum_constant, known] at demands
    simp only [encode, pair, answers]
    show
      (List.foldlM (codec.encodeStatement record) []
          (layout.procedure naming .encode).body >>= fun lengths =>
        pure (layout.total.sum lengths)) before = _
    simp only [Layout.procedure, Direction.closing, List.foldlM_cons,
      List.append_nil, known, bind_assoc]
    rw [Writer.bind_apply (codec.encodeStatement _ _ _), demands]
    by_cases short : before.length < 0 + StoredField.staticWidth stored
    · rw [if_pos short, StoredField.encodeFields_of_short short]
    · have walked :=
        encodesLike_of_places places record (.constant layout.staticSize) []
          before follows (by rw [Offset.sum_constant]; omega)
      rw [if_neg short]
      rw [known] at walked
      exact walked

/-- Every operation of a compiled record that has a variant runs like the cursor
over the schema's fields as they are stored in that variant. -/
theorem runsLike_of_compile
    {schema : Schema} {registry : Registry} {options : GenerateOptions}
    {codec : RecordCodec} {operation : Operation} {variant : Variant}
    (compiled : compile schema registry options = .ok codec)
    (serves : codec.variant? operation = some variant) :
    ∃ stored,
      List.Forall₂ (Field.StoredAs registry variant) schema.fields stored ∧
        codec.RunsLike operation variant.order stored := by
  obtain ⟨_, _, stored, _, answers, storedFields, places, rfl⟩ :=
    layout_of_compile compiled serves
  exact ⟨stored, storedFields, runsLike_of_places answers places⟩

end RecordCodec

end PackedRecord
