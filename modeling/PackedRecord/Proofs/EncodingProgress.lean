import PackedRecord.Proofs.LeafEncoding

/-!
# How far encoding gets

How far encoding a record gets is read off its shape, the record and the length of
the buffer.  Encoding fails before a field that has no room or holds no value of its
type, or on the way through a nested record.  The cursor writes leaf after leaf, so
exactly the leaves before that point are written, and a record whose fields all fit
is written whole.
-/

namespace PackedRecord

/-- How far encoding gets: the leaves that are written, and why it stops short if
it does. -/
structure Progress where
  written : List Leaf := []
  cause? : Option CodecError := none

namespace Progress

/-- Progress behind leaves that were written before. -/
def behind (front : List Leaf) (progress : Progress) : Progress :=
  { progress with written := front ++ progress.written }

/-- Progress in a nested record as it is seen from outside of its field. -/
def within (field : String) (progress : Progress) : Progress :=
  { progress with written := progress.written.map (Leaf.within field) }

/-- Progress that goes on with the next one unless it stops short. -/
def andThen (progress next : Progress) : Progress :=
  match progress.cause? with
  | none => next.behind progress.written
  | some _ => progress

/-- What a run with this progress gives: where the cursor ends, or the cause of the
failure, with the buffer that is left behind. -/
def result (progress : Progress) (stop : Nat) (after : Bytes) :
    EStateM.Result CodecError Bytes Nat :=
  match progress.cause? with
  | none => .ok stop after
  | some cause => .error cause after

/-- The outcome of a run that started at a cursor: the written leaves stand there
one behind the other, and nothing else has changed. -/
def Describes (progress : Progress) (record : Record) (cursor stop : Nat)
    (before : Bytes) (outcome : EStateM.Result CodecError Bytes Nat) : Prop :=
  ∃ bytes,
    Leaf.encoding? record progress.written = some bytes ∧
      outcome = progress.result stop (before.overwrite cursor bytes)

section Outcome

variable {progress next : Progress} {record : Record} {cursor stop : Nat}
  {before after : Bytes} {outcome : EStateM.Result CodecError Bytes Nat}

theorem andThen_of_passed (passed : progress.cause? = none) :
    progress.andThen next = next.behind progress.written := by
  rw [andThen, passed]

theorem andThen_of_stopped
    {cause : CodecError} (stopped : progress.cause? = some cause) :
    progress.andThen next = progress := by
  rw [andThen, stopped]

private theorem cause?_andThen :
    (progress.andThen next).cause? = none ↔
      progress.cause? = none ∧ next.cause? = none := by
  cases stopped : progress.cause? with
  | none => simp [andThen_of_passed stopped, behind]
  | some cause => simp [andThen_of_stopped stopped, stopped]

theorem result_of_passed (passed : progress.cause? = none) :
    progress.result stop after = .ok stop after := by
  rw [result, passed]

theorem result_of_stopped
    {cause : CodecError} (stopped : progress.cause? = some cause) :
    progress.result stop after = .error cause after := by
  rw [result, stopped]

private theorem result_within (field : String) :
    (progress.within field).result stop after = progress.result stop after :=
  rfl

theorem describes_result (cause? : Option CodecError) :
    { cause? : Progress }.Describes record cursor stop before
      ({ cause? : Progress }.result stop before) := by
  refine ⟨[], rfl, ?_⟩
  rw [Bytes.overwrite_nil]

theorem Describes.behind
    {front : List Leaf} {bytes : Bytes}
    (encoded : Leaf.encoding? record front = some bytes)
    (inside : cursor + bytes.length ≤ before.length)
    (describes :
      next.Describes record (cursor + bytes.length) stop
        (before.overwrite cursor bytes) outcome) :
    (next.behind front).Describes record cursor stop before outcome := by
  obtain ⟨others, othersEncoded, same⟩ := describes
  rw [Bytes.overwrite_overwrite inside] at same
  exact ⟨bytes ++ others, Leaf.encoding?_append encoded othersEncoded, same⟩

end Outcome

end Progress

namespace Shape

/-- Every field of the record is there and can be stored, and so are the fields of
the records nested in it. -/
def Conforms (record : Record) : Shape → Prop
  | done => True
  | leaf field type enum? rest =>
      (∃ integer,
        record.integerIn? field enum? = some integer ∧ type.Holds integer) ∧
        rest.Conforms record
  | nested field _ _ inner rest =>
      (∃ entries,
        record.recordIn? field = some entries ∧ inner.Conforms entries) ∧
        rest.Conforms record

/-- How far encoding a record from a cursor on gets in a buffer with the given
number of bytes. -/
def progress (order : ByteOrder) (available : Nat) (record : Record)
    (cursor : Nat) (shape : Shape) : Progress :=
  if available < cursor + shape.staticSize then
    { cause? := some (.bufferTooSmall (cursor + shape.staticSize) available) }
  else
    match shape with
    | done => {}
    | leaf field type enum? rest =>
        match record.word field type enum? with
        | .error cause => { cause? := some cause }
        | .ok _ =>
            (rest.progress order available record
              (cursor + type.width)).behind
              [{ inside := [], field, order, type, enum? }]
    | nested field typeName order? inner rest =>
        match record.entries field typeName with
        | .error cause => { cause? := some cause }
        | .ok entries =>
            ((inner.progress (order?.getD order) (available - cursor) entries
              0).within field).andThen
              (rest.progress order available record (cursor + inner.size))

section Progress

variable (order : ByteOrder) (available : Nat) (record : Record) (cursor : Nat)
  (shape : Shape)

theorem written_of_passed
    (passed : (shape.progress order available record cursor).cause? = none) :
    (shape.progress order available record cursor).written =
      shape.leaves order := by
  fun_induction progress order available record cursor shape with
  | case1 => cases passed
  | case2 => rw [leaves]
  | case3 => cases passed
  | case4 order available record cursor field type enum? rest word stored room
      restHypothesis =>
      have others := restHypothesis passed
      rw [Progress.behind, others, leaves, List.singleton_append]
  | case5 => cases passed
  | case6 order available record cursor field typeName order? inner rest entries
      held room innerHypothesis restHypothesis =>
      obtain ⟨innerPassed, restPassed⟩ := Progress.cause?_andThen.mp passed
      have first := innerHypothesis innerPassed
      have others := restHypothesis restPassed
      rw [Progress.andThen_of_passed innerPassed, Progress.behind,
        Progress.within, first, others, leaves]

theorem written_prefix :
    (shape.progress order available record cursor).written <+:
      shape.leaves order := by
  fun_induction progress order available record cursor shape with
  | case1 => exact List.nil_prefix
  | case2 => exact List.nil_prefix
  | case3 => exact List.nil_prefix
  | case4 order available record cursor field type enum? rest word stored room
      restHypothesis =>
      exact List.cons_prefix_cons.mpr ⟨rfl, restHypothesis⟩
  | case5 => exact List.nil_prefix
  | case6 order available record cursor field typeName order? inner rest entries
      held room innerHypothesis restHypothesis =>
      cases stopped :
          ((inner.progress (order?.getD order) (available - cursor) entries
            0).within field).cause? with
      | none =>
          have all := written_of_passed _ _ _ _ _ stopped
          rw [Progress.andThen_of_passed stopped, Progress.behind,
            Progress.within, all, leaves]
          exact (List.prefix_append_right_inj _).mpr restHypothesis
      | some cause =>
          have first := innerHypothesis.map (Leaf.within field)
          rw [Progress.andThen_of_stopped stopped]
          exact first.trans (List.prefix_append _ _)

/-- Encoding gets through if there is room for the shape and the record conforms
to it. -/
theorem passed_iff_conforms :
    (shape.progress order available record cursor).cause? = none ↔
      cursor + shape.size ≤ available ∧ shape.Conforms record := by
  fun_induction progress order available record cursor shape with
  | case1 shape order available record cursor short =>
      have atMost := shape.staticSize_le_size
      simp only [reduceCtorEq, false_iff]
      omega
  | case2 order available record cursor room =>
      rw [staticSize] at room
      simp only [Conforms, size, and_true, true_iff]
      omega
  | case3 order available record cursor field type enum? rest cause refused =>
      have unfit :
          ¬∃ integer,
            record.integerIn? field enum? = some integer ∧
              type.Holds integer := by
        intro found
        obtain ⟨integer, held, holds⟩ := found
        have stored := Record.word_eq_ok.mpr ⟨integer, held, holds, rfl⟩
        cases refused.symm.trans stored
      simp [Conforms, unfit]
  | case4 order available record cursor field type enum? rest word stored room
      restHypothesis =>
      obtain ⟨integer, held, holds, _⟩ := Record.word_eq_ok.mp stored
      have fits :
          ∃ integer,
            record.integerIn? field enum? = some integer ∧
              type.Holds integer :=
        ⟨integer, held, holds⟩
      rw [Progress.behind, restHypothesis, Conforms, size, Nat.add_assoc]
      simp only [fits, true_and]
  | case5 order available record cursor field typeName order? inner rest cause
      refused =>
      have absent : record.recordIn? field = none := by
        by_contra present
        obtain ⟨entries, found⟩ := Option.ne_none_iff_exists'.mp present
        cases refused.symm.trans (Record.entries_eq_ok.mpr found)
      simp [Conforms, absent]
  | case6 order available record cursor field typeName order? inner rest entries
      held room innerHypothesis restHypothesis =>
      have found := Record.entries_eq_ok.mp held
      have within : cursor ≤ available := by omega
      rw [Progress.cause?_andThen, Progress.within, innerHypothesis,
        restHypothesis, Conforms, size]
      simp only [found, Option.some.injEq, exists_eq_left']
      constructor
      · intro passes
        obtain ⟨⟨_, innerConforms⟩, room, restConforms⟩ := passes
        exact ⟨by omega, innerConforms, restConforms⟩
      · intro passes
        obtain ⟨room, innerConforms, restConforms⟩ := passes
        exact ⟨⟨by omega, innerConforms⟩, by omega, restConforms⟩

/-- Encoding that gets through has filled the room of the shape. -/
theorem filled_of_passed
    (passed : (shape.progress order available record cursor).cause? = none) :
    Leaf.widths (shape.progress order available record cursor).written =
        shape.size ∧
      cursor + shape.size ≤ available := by
  have all := written_of_passed order available record cursor shape passed
  have fits :=
    (passed_iff_conforms order available record cursor shape).mp passed
  rw [all, widths_leaves]
  exact ⟨rfl, fits.1⟩

end Progress

end Shape

/-! ## The cursor over leaves -/

namespace StoredField

private theorem Expands.room_of_not_short
    {order : ByteOrder} {stored : List StoredField} {shape : Shape}
    (expands : Expands order stored shape) {available cursor : Nat}
    {before : Bytes} (length : before.length = available)
    (room : ¬available < cursor + shape.staticSize) :
    cursor + staticWidth stored ≤ before.length := by
  rw [expands.staticWidth_eq, length]
  exact Nat.le_of_not_lt room

section Describes

variable {order : ByteOrder} {record : Record} {cursor stop width : Nat}
  {before : Bytes} {field : StoredField} {rest : List StoredField}

/-- A field that is refused before anything is written ends the run. -/
private theorem describes_of_error
    (demanded : cursor + staticWidth (field :: rest) ≤ before.length)
    {cause : CodecError}
    (refused : encodeAt order record cursor field before = .error cause before) :
    ({ cause? := some cause } : Progress).Describes record cursor stop before
      (encodeFields order record cursor (field :: rest) before) := by
  rw [encodeFields_cons_of_error demanded refused]
  exact Progress.describes_result (some cause)

/-- Behind a field that is written whole the cursor gets as far as it does from there,
and otherwise no further than in the field. -/
private theorem describes_andThen
    (demanded : cursor + staticWidth (field :: rest) ≤ before.length)
    {progress next : Progress}
    (describes :
      progress.Describes record cursor width before
        (encodeAt order record cursor field before))
    (filled :
      progress.cause? = none →
        Leaf.widths progress.written = width ∧ cursor + width ≤ before.length)
    (others :
      ∀ between : Bytes,
        between.length = before.length →
          next.Describes record (cursor + width) stop between
            (encodeFields order record (cursor + width) rest between)) :
    (progress.andThen next).Describes record cursor stop before
      (encodeFields order record cursor (field :: rest) before) := by
  obtain ⟨bytes, encoded, outcome⟩ := describes
  cases stopped : progress.cause? with
  | some cause =>
      rw [Progress.result_of_stopped stopped] at outcome
      rw [Progress.andThen_of_stopped stopped,
        encodeFields_cons_of_error demanded outcome]
      exact ⟨bytes, encoded, (Progress.result_of_stopped stopped).symm⟩
  | none =>
      obtain ⟨widths, room⟩ := filled stopped
      have sameWidth : bytes.length = width :=
        (Leaf.length_encoding? encoded).trans widths
      have behind :=
        others (before.overwrite cursor bytes)
          (Bytes.length_overwrite (by omega))
      rw [Progress.result_of_passed stopped] at outcome
      rw [Progress.andThen_of_passed stopped,
        encodeFields_cons_of_ok demanded outcome]
      rw [← sameWidth] at behind ⊢
      exact .behind encoded (by omega) behind

private theorem encodeAt_describes_leaf
    {type : IntegerType} (sized : type.Sized) {enum? : Option EnumDecl}
    {name : String} {word : UInt64}
    (fits : record.word name type enum? = .ok word)
    (room : cursor + type.width ≤ before.length) :
    ({ written := [{ inside := [], field := name, order, type, enum? }] } :
      Progress).Describes record cursor type.width before
      (encodeAt order record cursor
        { name, storage := .ofLeaf type enum? } before) := by
  obtain ⟨integer, held, holds, _⟩ := Record.word_eq_ok.mp fits
  have encoded := Leaf.bytes?_of_integer order held holds
  rw [← Leaf.encoding?_singleton] at encoded
  exact ⟨_, encoded, encodeAt_of_integer sized room held holds⟩

/-- A nested record is written as far as encoding it gets on its own. -/
private theorem encodeAt_describes_record
    {codec : RecordCodec} {operation : Operation} {innerOrder : ByteOrder}
    {innerStored : List StoredField} {entries : Record} {name : String}
    (order : ByteOrder)
    (runs : codec.RunsLike operation innerOrder innerStored)
    (held : record.recordIn? name = some entries) {progress : Progress}
    (describes :
      progress.Describes entries 0 width (before.drop cursor)
        (encodeFields innerOrder entries 0 innerStored (before.drop cursor)))
    (inside : cursor ≤ before.length)
    (room : progress.cause? = none → cursor + width ≤ before.length) :
    (progress.within name).Describes record cursor width before
      (encodeAt order record cursor
        { name, storage := .composite codec.toComposite operation } before) := by
  obtain ⟨bytes, encoded, walked⟩ := describes
  rw [← Leaf.encoding?_map_within held] at encoded
  refine ⟨bytes, encoded, ?_⟩
  rw [Progress.result_within]
  cases stopped : progress.cause? with
  | some cause =>
      rw [Progress.result_of_stopped stopped] at walked ⊢
      exact encodeAt_of_failed_record order runs held walked inside
  | none =>
      rw [Progress.result_of_passed stopped] at walked ⊢
      exact encodeAt_of_record order runs held walked (room stopped)

end Describes

/-- The cursor gets as far as the shape tells, and writes the leaves up to there. -/
theorem Expands.progress_describes
    {order : ByteOrder} {stored : List StoredField} {shape : Shape}
    (expands : Expands order stored shape) {available : Nat} {before : Bytes}
    (length : before.length = available) (record : Record) (cursor : Nat) :
    (shape.progress order available record cursor).Describes record cursor
      (cursor + shape.size) before
      (encodeFields order record cursor stored before) := by
  fun_induction Shape.progress order available record cursor shape
    generalizing stored before with
  | case1 shape order available record cursor short =>
      rw [← length, ← expands.staticWidth_eq] at short
      rw [encodeFields_of_short short, expands.staticWidth_eq, length]
      exact Progress.describes_result _
  | case2 order available record cursor room =>
      cases expands
      rw [Shape.staticSize] at room
      have ended :
          encodeFields order record cursor [] before = .ok cursor before :=
        encodeFields_nil_eq_ok.mpr ⟨by omega, rfl, rfl⟩
      rw [ended]
      exact Progress.describes_result none
  | case3 order available record cursor field type enum? rest cause refused
      room =>
      have demanded := expands.room_of_not_short length room
      rw [Shape.staticSize] at room
      cases expands with
      | leaf _ _ sized restExpands =>
          apply describes_of_error demanded
          rw [encodeAt_leaf (by omega), refused]
  | case4 order available record cursor field type enum? rest word fits room
      restHypothesis =>
      have demanded := expands.room_of_not_short length room
      rw [Shape.staticSize] at room
      rw [Shape.size, ← Nat.add_assoc]
      cases expands with
      | leaf _ _ sized restExpands =>
          have here : cursor + type.width ≤ before.length := by omega
          refine
            describes_andThen demanded (encodeAt_describes_leaf sized fits here)
              (fun _ => ⟨by simp [Leaf.width], here⟩) ?_
          intro between sameLength
          exact restHypothesis restExpands (sameLength.trans length)
  | case5 order available record cursor field typeName order? inner rest cause
      refused room =>
      have demanded := expands.room_of_not_short length room
      cases expands with
      | @nested _ _ _ _ _ _ codec operation _ runs innerExpands restExpands =>
          apply describes_of_error demanded
          rw [encodeAt_record (by omega), refused]
  | case6 order available record cursor field typeName order? inner rest entries
      held room innerHypothesis restHypothesis =>
      have demanded := expands.room_of_not_short length room
      have found := Record.entries_eq_ok.mp held
      rw [Shape.size, ← Nat.add_assoc]
      cases expands with
      | nested _ runs innerExpands restExpands =>
          have innerLength :
              (before.drop cursor).length = available - cursor := by
            rw [List.length_drop, length]
          have inside := innerHypothesis innerExpands innerLength
          rw [Nat.zero_add] at inside
          have filled :=
            inner.filled_of_passed (order?.getD order) (available - cursor)
              entries 0
          have written :=
            encodeAt_describes_record order runs found inside (by omega)
              fun passed => by
                have fits := (filled passed).2
                omega
          refine describes_andThen demanded written ?_ ?_
          · intro passed
            obtain ⟨widths, fits⟩ := filled passed
            rw [Progress.within, Leaf.widths_map_within]
            exact ⟨widths, by omega⟩
          · intro between sameLength
            exact restHypothesis restExpands (sameLength.trans length)

end StoredField

namespace RecordCodec.HasShape

variable {codec : RecordCodec} {shape : Shape} (has : codec.HasShape shape)
  {operation : Operation} {variant : Variant}
  (serves : codec.variant? operation = some variant)
include has serves

theorem progress_describes (record : Record) (before : Bytes) :
    (shape.progress variant.order before.length record 0).Describes record 0
      shape.size before (codec.encode operation record before) := by
  obtain ⟨stored, runs, expands⟩ := has.exists_run serves
  have describes :=
    expands.progress_describes (rfl : before.length = before.length) record 0
  rw [← runs.encode_eq, Nat.zero_add] at describes
  exact describes

theorem encode_eq_ok_iff {record : Record} {before : Bytes} {count : Nat} :
    (∃ after, codec.encode operation record before = .ok count after) ↔
      shape.size ≤ before.length ∧ shape.Conforms record ∧
        count = shape.size := by
  have passes :=
    Shape.passed_iff_conforms variant.order before.length record 0 shape
  rw [Nat.zero_add] at passes
  rw [← and_assoc, ← passes]
  obtain ⟨bytes, _, outcome⟩ := has.progress_describes serves record before
  cases stopped :
      (shape.progress variant.order before.length record 0).cause? with
  | some cause =>
      rw [outcome, Progress.result_of_stopped stopped]
      simp
  | none =>
      rw [outcome, Progress.result_of_passed stopped]
      simp [eq_comm]

end RecordCodec.HasShape

end PackedRecord
