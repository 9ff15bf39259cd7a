import PackedRecord.Proofs.LengthTable

/-!
# Demands cover every access

A procedure demands room at its start and behind each composite, and a composite
may report any length.  This module follows a run from statement to statement:
wherever it comes to, what it does next is safe, and adding up an offset stays
below twice the length of the buffer, or below the statically known size.

So a buffer is found too small at a demand, or by a composite in what is left of
the buffer for it, and nowhere else.
-/

namespace PackedRecord

/-! ## Runs and the table of lengths -/

namespace RecordCodec

section Runs

variable {codec : RecordCodec} {record : Record} {buffer : Bytes}
  {field : PlacedField} {lengths : List Nat}

private theorem extends_of_readField
    {value : Value} {after : List Nat}
    (done : codec.readField buffer lengths field = .ok (value, after)) :
    field.Extends buffer.length lengths after := by
  unfold PlacedField.Extends
  cases access : field.access with
  | composite typeName operation length =>
      simp only [readField, access, bind_eq_ok, pure_eq_ok, Prod.exists,
        Prod.mk.injEq] at done
      rcases done with ⟨target, _, _, consumed, nested, _, rfl⟩
      have inside := (Bytes.decodeNested_eq_ok.mp nested).2.2
      exact ⟨consumed, inside, rfl⟩
  | _ =>
      simp only [readField, access, bind_eq_ok, pure_eq_ok,
        Prod.mk.injEq] at done
      grind [Access.length?]

private theorem extends_of_writeField
    {value : Value} {before left : Bytes} {after : List Nat}
    (done : codec.writeField lengths field value before = .ok after left) :
    field.Extends before.length lengths after := by
  unfold PlacedField.Extends
  cases access : field.access with
  | composite typeName operation length =>
      simp only [writeField, access, Writer.bind_eq_ok, Writer.pure_eq_ok,
        Writer.ofExcept_eq_ok] at done
      rcases done with ⟨target, _, ⟨_, rfl⟩, written, _, nested, rfl, _⟩
      obtain ⟨_, _, _, inside, _⟩ := Writer.encodeNested_eq_ok.mp nested
      exact ⟨written, inside, rfl⟩
  | _ =>
      simp only [writeField, access, Writer.bind_eq_ok,
        Writer.pure_eq_ok] at done
      grind [Access.length?]

private theorem passes_of_decodeStatement
    {state next : DecodeState} {statement : Statement}
    (done : codec.decodeStatement buffer state statement = .ok next) :
    Direction.decode.Passes buffer.length state.lengths next.lengths
      statement := by
  cases statement with
  | require size =>
      simp only [decodeStatement, bind_eq_ok, pure_eq_ok,
        Bytes.require_eq_ok] at done
      rcases done with ⟨_, room, rfl⟩
      exact ⟨room, rfl⟩
  | read field =>
      simp only [decodeStatement, bind_eq_ok, pure_eq_ok,
        Prod.exists] at done
      rcases done with ⟨value, after, found, rfl⟩
      exact extends_of_readField found
  | write field =>
      cases done
      exact rfl
  | construct fields =>
      cases done
      exact rfl

private theorem passes_of_encodeStatement
    {next : List Nat} {before after : Bytes} {statement : Statement}
    (done :
      codec.encodeStatement record lengths statement before =
        .ok next after) :
    Direction.encode.Passes before.length lengths next statement := by
  cases statement with
  | require size =>
      simp only [encodeStatement, Writer.bind_eq_ok, Writer.pure_eq_ok,
        Writer.require_eq_ok] at done
      rcases done with ⟨_, _, ⟨room, _⟩, rfl, _⟩
      exact ⟨room, rfl⟩
  | read field =>
      cases done
      exact rfl
  | write field =>
      simp only [encodeStatement] at done
      cases present : record.get? field.name with
      | none =>
          rw [present] at done
          cases done
      | some value =>
          rw [present] at done
          exact extends_of_writeField done
  | construct fields =>
      cases done
      exact rfl

private theorem passesAll_of_decode
    {statements : List Statement} {state last : DecodeState}
    (done :
      statements.foldlM (codec.decodeStatement buffer) state = .ok last) :
    Direction.decode.PassesAll buffer.length state.lengths last.lengths
      statements := by
  induction statements generalizing state with
  | nil =>
      rw [List.foldlM_nil, pure_eq_ok] at done
      rw [done]
      exact rfl
  | cons statement rest inductionHypothesis =>
      rw [List.foldlM_cons, bind_eq_ok] at done
      rcases done with ⟨next, first, others⟩
      exact ⟨next.lengths, passes_of_decodeStatement first,
        inductionHypothesis others⟩

private theorem passesAll_of_encode
    {statements : List Statement} {last : List Nat} {before after : Bytes}
    (done :
      statements.foldlM (codec.encodeStatement record) lengths before =
        .ok last after) :
    Direction.encode.PassesAll before.length lengths last statements := by
  induction statements generalizing lengths before with
  | nil =>
      obtain ⟨same, _⟩ := Writer.pure_eq_ok.mp done
      exact same.symm
  | cons statement rest inductionHypothesis =>
      rw [List.foldlM_cons, Writer.bind_eq_ok] at done
      rcases done with ⟨next, between, first, others⟩
      have sameLength :=
        (codec.encodeStatement_keepsLength record lengths statement).of_ok first
      have passed := inductionHypothesis others
      rw [sameLength] at passed
      exact ⟨next, passes_of_encodeStatement first, passed⟩

/-- A run has come through some statements, with a table of lengths and with the
buffer as it is then. -/
def Runs (codec : RecordCodec) (record : Record) (buffer : Bytes)
    (earlier : List Statement) (lengths : List Nat) (current : Bytes) :
    Direction → Prop
  | .decode =>
      current = buffer ∧
        ∃ state,
          earlier.foldlM (codec.decodeStatement buffer) {} = .ok state ∧
            state.lengths = lengths
  | .encode =>
      earlier.foldlM (codec.encodeStatement record) [] buffer =
        .ok lengths current

/-- A run of a procedure has come to some statements that are left. -/
def StandsBefore (codec : RecordCodec) (pair : CodecPair)
    (direction : Direction) (record : Record) (buffer : Bytes)
    (left : List Statement) (lengths : List Nat) (current : Bytes) : Prop :=
  ∃ earlier,
    (pair.procedure direction).body = earlier ++ left ∧
      codec.Runs record buffer earlier lengths current direction

private theorem passesAll_of_runs
    {direction : Direction} {earlier : List Statement} {current : Bytes}
    (runs : codec.Runs record buffer earlier lengths current direction) :
    direction.PassesAll buffer.length [] lengths earlier := by
  cases direction with
  | decode =>
      obtain ⟨_, state, done, rfl⟩ := runs
      exact passesAll_of_decode done
  | encode => exact passesAll_of_encode runs

end Runs

/-! ## Where room can be missing -/

/-- The run of a statement fails for lack of room: the statement is a demand that is
not met, or a composite that is handed what is left of the buffer fails so
itself. -/
inductive Lacks (codec : RecordCodec) (record : Record) (lengths : List Nat)
    (current : Bytes) (needed available : Nat) : Statement → Prop
  | demand (size : Offset)
      (asked : size.sum lengths = needed)
      (has : current.length = available)
      (short : available < needed) :
      Lacks codec record lengths current needed available (.require size)
  | decoding (field : PlacedField) {typeName declared : String}
      {selected : Operation} {length : LengthVar} {target : Composite}
      (access : field.access = .composite typeName selected length)
      (found : codec.types.get? typeName = some (.bound declared target))
      (fails :
        target.decode selected (current.drop (field.offset.sum lengths)) =
          .error (.bufferTooSmall needed available)) :
      Lacks codec record lengths current needed available (.read field)
  | encoding (field : PlacedField) {typeName declared : String}
      {selected : Operation} {length : LengthVar} {target : Composite}
      {value : Value} {left : Bytes}
      (access : field.access = .composite typeName selected length)
      (found : codec.types.get? typeName = some (.bound declared target))
      (present : record.get? field.name = some value)
      (fails :
        target.encode selected value
            (current.drop (field.offset.sum lengths)) =
          .error (.bufferTooSmall needed available) left) :
      Lacks codec record lengths current needed available (.write field)

section Failures

variable {codec : RecordCodec} {record : Record} {buffer : Bytes}
  {field : PlacedField} {lengths : List Nat} {needed available : Nat}

private theorem readWord_ne_error
    {offset width : Nat} {order : ByteOrder} {cause : CodecError}
    (inside : offset + width ≤ buffer.length) :
    buffer.readWord offset width order ≠ .error cause := by
  intro failed
  obtain ⟨short, _⟩ := Bytes.readWord_eq_error.mp failed
  exact Nat.not_le_of_lt short inside

private theorem writeWord_ne_error
    {offset width : Nat} {order : ByteOrder} {word : UInt64}
    {cause : CodecError} {left : Bytes}
    (inside : offset + width ≤ buffer.length) :
    Writer.writeWord offset width order word buffer ≠ .error cause left := by
  intro failed
  obtain ⟨short, _⟩ := Writer.writeWord_eq_error.mp failed
  exact Nat.not_le_of_lt short inside

private theorem enum_ne_short {typeName : String} :
    codec.enum typeName ≠ .error (.bufferTooSmall needed available) := by
  unfold RecordCodec.enum
  split <;> nofun

theorem composite_eq_ok
    {typeName operationName : String} {target : Composite}
    (bound : codec.composite typeName operationName = .ok target) :
    ∃ declared, codec.types.get? typeName = some (.bound declared target) := by
  unfold composite at bound
  split at bound
  · next declared _ found =>
      cases bound
      exact ⟨declared, found⟩
  · cases bound

private theorem composite_ne_short {typeName operationName : String} :
    codec.composite typeName operationName ≠
      .error (.bufferTooSmall needed available) := by
  unfold composite
  split <;> nofun

private theorem loadVariant_ne_short
    {declaration : EnumDecl} {underlying : IntegerType} {typeName : String}
    {word : UInt64} :
    loadVariant declaration underlying typeName word ≠
      .error (.bufferTooSmall needed available) := by
  simp only [loadVariant]
  split <;> nofun

private theorem checkedWord_ne_short
    {name : String} {type : IntegerType} {number : Int} :
    checkedWord name type number ≠
      .error (.bufferTooSmall needed available) := by
  unfold checkedWord
  split <;> nofun

private theorem integerWord_ne_short
    {name : String} {type : IntegerType} {value : Value} :
    integerWord name type value ≠
      .error (.bufferTooSmall needed available) := by
  unfold integerWord
  split
  · exact checkedWord_ne_short
  · nofun

private theorem discriminant_ne_short
    {declaration : EnumDecl} {name typeName : String} {value : Value} :
    discriminant declaration name typeName value ≠
      .error (.bufferTooSmall needed available) := by
  unfold discriminant
  split
  · split <;> nofun
  · split
    · nofun
    · split <;> nofun

private theorem checkReported_ne_short {offset reported room : Nat} :
    Bytes.checkReported offset reported room ≠
      .error (.bufferTooSmall needed available) := by
  unfold Bytes.checkReported
  split <;> nofun

private theorem decodeNested_short
    {value : Type} {offset : Nat}
    {decode : Bytes → Except CodecError (value × Nat)}
    (failed :
      buffer.decodeNested offset decode =
        .error (.bufferTooSmall needed available))
    (inside : offset ≤ buffer.length) :
    decode (buffer.drop offset) = .error (.bufferTooSmall needed available) := by
  unfold Bytes.decodeNested Bytes.require at failed
  rw [if_neg (Nat.not_lt.mpr inside)] at failed
  simp only [bind_eq_error, reduceCtorEq, false_or] at failed
  rcases failed with ⟨_, _, fails | ⟨_, _, reported | ⟨_, _, given⟩⟩⟩
  · exact fails
  · exact absurd reported checkReported_ne_short
  · cases given

private theorem encodeNested_short
    {offset : Nat} {encode : Writer Nat} {after : Bytes}
    (failed :
      Writer.encodeNested offset encode buffer =
        .error (.bufferTooSmall needed available) after)
    (inside : offset ≤ buffer.length) :
    ∃ left,
      encode (buffer.drop offset) =
        .error (.bufferTooSmall needed available) left := by
  unfold Writer.encodeNested Bytes.require at failed
  rw [if_neg (Nat.not_lt.mpr inside)] at failed
  cases outcome : encode (buffer.drop offset) with
  | error cause left =>
      simp only [outcome] at failed
      cases failed
      exact ⟨left, rfl⟩
  | ok written left =>
      simp only [outcome] at failed
      split at failed
      · next reported =>
          cases failed
          exact absurd reported checkReported_ne_short
      · cases failed

private theorem lacks_of_readField
    (failed :
      codec.readField buffer lengths field =
        .error (.bufferTooSmall needed available))
    (inside : field.LiesIn lengths buffer.length) :
    codec.Lacks record lengths buffer needed available (.read field) := by
  unfold PlacedField.LiesIn PlacedField.width at inside
  cases access : field.access with
  | composite typeName selected length =>
      simp only [readField, access, bind_eq_error] at failed
      rw [access] at inside
      rcases failed with
        unbound | ⟨target, bound, nested | ⟨_, _, given⟩⟩
      · exact absurd unbound composite_ne_short
      · obtain ⟨declared, found⟩ := composite_eq_ok bound
        exact .decoding field access found (decodeNested_short nested inside)
      · cases given
  | integer type order =>
      simp only [readField, access, bind_eq_error] at failed
      rw [access] at inside
      rcases failed with outside | ⟨_, _, given⟩
      · exact absurd outside (readWord_ne_error inside)
      · cases given
  | byte signed =>
      simp only [readField, access, bind_eq_error] at failed
      rw [access] at inside
      rcases failed with outside | ⟨_, _, given⟩
      · exact absurd outside (readWord_ne_error inside)
      · cases given
  | enum typeName underlying order =>
      simp only [readField, access, bind_eq_error] at failed
      rw [access] at inside
      rcases failed with
        outside | ⟨_, _, undeclared | ⟨_, _, unloaded | ⟨_, _, given⟩⟩⟩
      · exact absurd outside (readWord_ne_error inside)
      · exact absurd undeclared enum_ne_short
      · exact absurd unloaded loadVariant_ne_short
      · cases given

private theorem lacks_of_writeField
    {value : Value} {after : Bytes}
    (present : record.get? field.name = some value)
    (failed :
      codec.writeField lengths field value buffer =
        .error (.bufferTooSmall needed available) after)
    (inside : field.LiesIn lengths buffer.length) :
    codec.Lacks record lengths buffer needed available (.write field) := by
  unfold PlacedField.LiesIn PlacedField.width at inside
  cases access : field.access with
  | composite typeName selected length =>
      simp only [writeField, access, Writer.bind_eq_error,
        Writer.ofExcept_eq_ok, Writer.ofExcept_eq_error] at failed
      rw [access] at inside
      rcases failed with
        ⟨unbound, _⟩ | ⟨target, _, ⟨bound, rfl⟩, nested | ⟨_, _, _, given⟩⟩
      · exact absurd unbound composite_ne_short
      · obtain ⟨declared, found⟩ := composite_eq_ok bound
        obtain ⟨left, fails⟩ := encodeNested_short nested inside
        exact .encoding field access found present fails
      · cases given
  | integer type order =>
      simp only [writeField, access, Writer.bind_eq_error,
        Writer.ofExcept_eq_ok, Writer.ofExcept_eq_error] at failed
      rw [access] at inside
      rcases failed with
        ⟨unfit, _⟩ | ⟨_, _, ⟨_, rfl⟩, outside | ⟨_, _, _, given⟩⟩
      · exact absurd unfit integerWord_ne_short
      · exact absurd outside (writeWord_ne_error inside)
      · cases given
  | byte signed =>
      simp only [writeField, access, Writer.bind_eq_error,
        Writer.ofExcept_eq_ok, Writer.ofExcept_eq_error] at failed
      rw [access] at inside
      rcases failed with
        ⟨unfit, _⟩ | ⟨_, _, ⟨_, rfl⟩, outside | ⟨_, _, _, given⟩⟩
      · exact absurd unfit integerWord_ne_short
      · exact absurd outside (writeWord_ne_error inside)
      · cases given
  | enum typeName underlying order =>
      simp only [writeField, access, Writer.bind_eq_error, bind_eq_error,
        Writer.ofExcept_eq_ok, Writer.ofExcept_eq_error] at failed
      rw [access] at inside
      rcases failed with
        ⟨undeclared | ⟨_, _, unnamed | ⟨_, _, unfit⟩⟩, _⟩ |
          ⟨_, _, ⟨_, rfl⟩, outside | ⟨_, _, _, given⟩⟩
      · exact absurd undeclared enum_ne_short
      · exact absurd unnamed discriminant_ne_short
      · exact absurd unfit checkedWord_ne_short
      · exact absurd outside (writeWord_ne_error inside)
      · cases given

private theorem lacks_of_decodeStatement
    {state : DecodeState} {statement : Statement}
    (failed :
      codec.decodeStatement buffer state statement =
        .error (.bufferTooSmall needed available))
    (inside : ∀ field,
      statement.field? = some field →
        field.LiesIn state.lengths buffer.length) :
    codec.Lacks record state.lengths buffer needed available statement := by
  cases statement with
  | require size =>
      rw [decodeStatement_require] at failed
      split at failed
      · next short =>
          cases failed
          exact .demand size rfl rfl short
      · cases failed
  | read field =>
      simp only [decodeStatement, bind_eq_error] at failed
      rcases failed with failed | ⟨_, _, given⟩
      · exact lacks_of_readField failed (inside field rfl)
      · cases given
  | write field => cases failed
  | construct fields => cases failed

private theorem lacks_of_encodeStatement
    {statement : Statement} {after : Bytes}
    (failed :
      codec.encodeStatement record lengths statement buffer =
        .error (.bufferTooSmall needed available) after)
    (inside : ∀ field,
      statement.field? = some field → field.LiesIn lengths buffer.length) :
    codec.Lacks record lengths buffer needed available statement := by
  cases statement with
  | require size =>
      rw [encodeStatement_require] at failed
      split at failed
      · next short =>
          cases failed
          exact .demand size rfl rfl short
      · cases failed
  | read field => cases failed
  | write field =>
      simp only [encodeStatement] at failed
      cases present : record.get? field.name with
      | none =>
          rw [present] at failed
          cases failed
      | some value =>
          rw [present] at failed
          exact lacks_of_writeField present failed (inside field rfl)
  | construct fields => cases failed

theorem pair_ne_short {operation : Operation} {base : String} :
    codec.pair operation base ≠ .error (.bufferTooSmall needed available) := by
  unfold pair
  split <;> nofun

end Failures

/-! ## Compiled records -/

section Compiled

variable {schema : Schema} {registry : Registry} {options : GenerateOptions}
  {codec : RecordCodec} {operation : Operation} {pair : CodecPair}
  {record : Record} {buffer : Bytes}

theorem nextIsSafe_of_standsBefore
    (compiled : compile schema registry options = .ok codec)
    (answers : codec.generated.pair? operation = some pair)
    {direction : Direction} {left : List Statement} {lengths : List Nat}
    {current : Bytes}
    (stands :
      codec.StandsBefore pair direction record buffer left lengths current) :
    (pair.procedure direction).NextIsSafe pair.staticSize lengths buffer.length
      left := by
  obtain ⟨variant, serves⟩ :
      ∃ variant, codec.variant? operation = some variant := by
    rw [variant?, answers]
    exact ⟨_, rfl⟩
  obtain ⟨_, placed, stored, total, answersHere, _, places, rfl⟩ :=
    layout_of_compile compiled serves
  obtain rfl := Option.some.inj (answers.symm.trans answersHere)
  rcases stands with ⟨earlier, split, runs⟩
  have passed := passesAll_of_runs runs
  have known : total.base = 0 + StoredField.staticWidth stored :=
    places.base_stop
  have follows :
      ({} : Offset).Follows (.constant total.base) [] stored :=
    ⟨rfl, rfl, known⟩
  have body :
      .require (.constant total.base) ::
          (direction.touchAll (.constant total.base) placed ++
            direction.closing placed) =
        earlier ++ left := by
    rw [← split]
    cases direction <;> rfl
  have returns :
      ((Layout.emit
          { record := schema.name, variant, fields := placed, total }
          options.naming).procedure direction).returns = total := by
    cases direction <;> rfl
  cases earlier with
  | nil =>
      obtain rfl : lengths = [] := passed
      rw [List.nil_append] at body
      subst body
      refine .of_bound (fun _ next => by cases next) ?_ ?_
      · rintro _ ⟨rfl⟩ length member
        cases member
      · rintro _ ⟨rfl⟩
        exact Nat.le_max_left _ _
  | cons statement earlier =>
      rw [List.cons_append, List.cons.injEq] at body
      rcases body with ⟨rfl, body⟩
      rcases passed with ⟨_, ⟨room, rfl⟩, passed⟩
      have guards := places.guardsAll _ _ _ follows room body passed
      rw [← returns] at guards
      exact guards.nextIsSafe

theorem exists_lacks_of_decode
    (compiled : compile schema registry options = .ok codec)
    {needed available : Nat}
    (failed :
      codec.decode operation buffer =
        .error (.bufferTooSmall needed available)) :
    ∃ pair statement later lengths,
      codec.generated.pair? operation = some pair ∧
        codec.StandsBefore pair .decode record buffer (statement :: later)
            lengths buffer ∧
          codec.Lacks record lengths buffer needed available statement := by
  simp only [decode, bind_eq_error, pair_eq_ok] at failed
  rcases failed with refused | ⟨pair, answers, stopped | ⟨_, _, given⟩⟩
  · exact absurd refused pair_ne_short
  · obtain ⟨earlier, statement, later, state, body, passed, failedThere⟩ :=
      exists_step_of_foldlM_eq_error stopped
    have stands :
        codec.StandsBefore pair .decode record buffer (statement :: later)
          state.lengths buffer :=
      ⟨earlier, body, rfl, state, passed, rfl⟩
    have safe := nextIsSafe_of_standsBefore compiled answers stands
    exact ⟨pair, statement, later, state.lengths, answers, stands,
      lacks_of_decodeStatement failedThere safe.inside⟩
  · cases given

theorem exists_lacks_of_encode
    (compiled : compile schema registry options = .ok codec)
    {needed available : Nat} {after : Bytes}
    (failed :
      codec.encode operation record buffer =
        .error (.bufferTooSmall needed available) after) :
    ∃ pair statement later lengths current,
      codec.generated.pair? operation = some pair ∧
        codec.StandsBefore pair .encode record buffer (statement :: later)
            lengths current ∧
          codec.Lacks record lengths current needed available statement := by
  simp only [encode, Writer.bind_eq_error, Writer.ofExcept_eq_error,
    Writer.ofExcept_eq_ok, pair_eq_ok] at failed
  rcases failed with
    ⟨refused, _⟩ | ⟨pair, _, ⟨answers, rfl⟩, stopped | ⟨_, _, _, given⟩⟩
  · exact absurd refused pair_ne_short
  · obtain ⟨earlier, statement, later, lengths, current, body, passed,
      failedThere⟩ := Writer.exists_step_of_foldlM_eq_error stopped
    have stands :
        codec.StandsBefore pair .encode record buffer (statement :: later)
          lengths current :=
      ⟨earlier, body, passed⟩
    have safe := nextIsSafe_of_standsBefore compiled answers stands
    have keeps :
        (earlier.foldlM (codec.encodeStatement record) []).KeepsLength :=
      Writer.KeepsLength.foldlM
        (fun reached one _ =>
          codec.encodeStatement_keepsLength record reached one) []
    rw [← keeps.of_ok passed] at safe
    exact ⟨pair, statement, later, lengths, current, answers, stands,
      lacks_of_encodeStatement failedThere safe.inside⟩
  · cases given

/-- The demands cover every access: wherever a run of a compiled record has come
to, what it does next is safe, and it fails for lack of room only at a demand or
inside a composite. -/
theorem demands_cover_accesses
    (compiled : compile schema registry options = .ok codec)
    (operation : Operation) (record : Record) (buffer : Bytes) :
    (∀ pair direction left lengths current,
        codec.generated.pair? operation = some pair →
          codec.StandsBefore pair direction record buffer left lengths
              current →
            (pair.procedure direction).NextIsSafe pair.staticSize lengths
              buffer.length left) ∧
      (∀ needed available,
        codec.decode operation buffer =
            .error (.bufferTooSmall needed available) →
          ∃ pair statement later lengths,
            codec.generated.pair? operation = some pair ∧
              codec.StandsBefore pair .decode record buffer
                (statement :: later) lengths buffer ∧
              codec.Lacks record lengths buffer needed available statement) ∧
      ∀ needed available after,
        codec.encode operation record buffer =
            .error (.bufferTooSmall needed available) after →
          ∃ pair statement later lengths current,
            codec.generated.pair? operation = some pair ∧
              codec.StandsBefore pair .encode record buffer
                (statement :: later) lengths current ∧
              codec.Lacks record lengths current needed available
                statement := by
  refine ⟨?_, ?_, ?_⟩
  · intro pair direction left lengths current answers stands
    exact nextIsSafe_of_standsBefore compiled answers stands
  · intro needed available failed
    exact exists_lacks_of_decode compiled failed
  · intro needed available after failed
    exact exists_lacks_of_encode compiled failed

end Compiled

/-- A nested record is all there, and the field behind it is not. -/
theorem demands_cover_accesses_of_line :
    ∃ codec pair statement later lengths,
      compile Drawing.line Drawing.points.registry {} = .ok codec ∧
        codec.decode (.ordered .big) [1, 0, 5, 4, 0] =
            .error (.bufferTooSmall 6 5) ∧
          codec.StandsBefore pair .decode [] [1, 0, 5, 4, 0]
              (statement :: later) lengths [1, 0, 5, 4, 0] ∧
            codec.Lacks [] lengths [1, 0, 5, 4, 0] 6 5 statement ∧
              pair.decode.NextIsSafe pair.staticSize lengths 5
                (statement :: later) := by
  obtain ⟨codec, compiled⟩ := Drawing.exists_codec_of_line
  obtain ⟨safe, decoding, _⟩ :=
    demands_cover_accesses compiled (.ordered .big) [] [1, 0, 5, 4, 0]
  have truncated :
      codec.decode (.ordered .big) [1, 0, 5, 4, 0] =
        .error (.bufferTooSmall 6 5) := by
    obtain rfl : codec = _ := (Except.ok.inj compiled).symm
    rfl
  obtain ⟨pair, statement, later, lengths, answers, stands, lacks⟩ :=
    decoding 6 5 truncated
  exact ⟨codec, pair, statement, later, lengths, compiled, truncated, stands,
    lacks, safe pair .decode _ lengths _ answers stands⟩

end RecordCodec

end PackedRecord
