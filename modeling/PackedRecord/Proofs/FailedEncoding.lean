import PackedRecord.Proofs.EncodingProgress

/-!
# Encodings that fail

A run that fails leaves a clean cut behind: the leaves before the point of failure
stand at the start of the buffer, one behind the other, and the rest of the buffer
is as it was.
-/

namespace PackedRecord.RecordCodec

/-- An operation that calls no variant fails before anything is written. -/
theorem encode_of_no_variant
    {codec : RecordCodec} {operation : Operation}
    (absent : codec.variant? operation = none) (record : Record)
    (before : Bytes) :
    codec.encode operation record before =
      .error (.unsupportedOperation codec.name (operation.name "encode"))
        before := by
  have noPair : codec.generated.pair? operation = none :=
    Option.map_eq_none_iff.mp absent
  have refused :
      codec.pair operation "encode" =
        .error
          (.unsupportedOperation codec.name (operation.name "encode")) := by
    rw [pair, noPair]
  rw [encode, Writer.bind_apply, refused]
  rfl

/-- How far an operation of a record gets; one that calls no variant does not get
anywhere. -/
def progress (codec : RecordCodec) (shape : Shape) (operation : Operation)
    (available : Nat) (record : Record) : Progress :=
  match codec.variant? operation with
  | some variant => shape.progress variant.order available record 0
  | none =>
      { cause? :=
          some
            (.unsupportedOperation codec.name (operation.name "encode")) }

theorem HasShape.encode_describes
    {codec : RecordCodec} {shape : Shape} (has : codec.HasShape shape)
    (operation : Operation) (record : Record) (before : Bytes) :
    (codec.progress shape operation before.length record).Describes record 0
      shape.size before (codec.encode operation record before) := by
  unfold progress
  cases serves : codec.variant? operation with
  | some variant => exact has.progress_describes serves record before
  | none =>
      rw [encode_of_no_variant serves]
      exact Progress.describes_result (some _)

private theorem written_prefix_of_progress
    {codec : RecordCodec} {operation : Operation} {variant : Variant}
    (serves : codec.variant? operation = some variant) (shape : Shape)
    (available : Nat) (record : Record) :
    (codec.progress shape operation available record).written <+:
      shape.leaves variant.order := by
  rw [progress, serves]
  exact Shape.written_prefix _ _ _ _ _

/-- The leaves that were written have room in the buffer. -/
private theorem length_le_of_error
    {codec : RecordCodec} {operation : Operation} {record : Record}
    {before bytes : Bytes} {cause : CodecError}
    (failed :
      codec.encode operation record before =
        .error cause (before.overwrite 0 bytes)) :
    bytes.length ≤ before.length := by
  have kept := codec.encode_keepsLength operation record before
  rw [failed] at kept
  simp only [Writer.buffer, Bytes.overwrite, List.take_zero, List.nil_append,
    List.length_append, List.length_drop] at kept
  omega

/-- When encoding a record of a catalog over enums fails, the leaves before the
point of failure are stored at the start of the buffer, and the bytes behind them
are as they were.  In a buffer shorter than the static size, every operation that
the record offers fails with nothing written, whatever the record holds. -/
theorem failed_encode_leaves_clean_cut
    {start : Registry} {catalog : Catalog} (onlyEnums : start.OnlyEnums)
    (reached : Catalog.Reached start catalog) {codec : RecordCodec}
    (member : codec ∈ catalog.codecs) :
    (∃ shape, codec.HasShape shape) ∧
      ∀ shape,
        codec.HasShape shape →
          (∀ operation record before cause after,
            codec.encode operation record before = .error cause after →
              ∃ written bytes,
                codec.progress shape operation before.length record =
                    { written, cause? := some cause } ∧
                  (∀ variant,
                    codec.variant? operation = some variant →
                      written <+: shape.leaves variant.order) ∧
                    Leaf.encoding? record written = some bytes ∧
                      bytes.length = Leaf.widths written ∧
                        bytes.length ≤ before.length ∧
                          after = bytes ++ before.drop bytes.length) ∧
            ∀ operation,
              codec.contract.offers operation = true →
                ∀ pair ∈ codec.generated.codecs,
                  ∀ record before,
                    before.length < pair.staticSize →
                      codec.encode operation record before =
                        .error
                          (.bufferTooSmall pair.staticSize before.length)
                          before := by
  refine ⟨reached.exists_shape onlyEnums member, ?_⟩
  intro shape has
  constructor
  · intro operation record before cause after failed
    obtain ⟨bytes, encoded, outcome⟩ :=
      has.encode_describes operation record before
    cases stopped :
        (codec.progress shape operation before.length record).cause? with
    | none =>
        rw [failed, Progress.result_of_passed stopped] at outcome
        cases outcome
    | some other =>
        rw [failed, Progress.result_of_stopped stopped] at outcome
        cases outcome
        refine ⟨_, bytes, ?_, ?_, encoded, Leaf.length_encoding? encoded,
          length_le_of_error failed, ?_⟩
        · rw [← stopped]
        · intro variant serves
          exact written_prefix_of_progress serves _ _ _
        · simp [Bytes.overwrite]
  · intro operation offered pair pairMember record before short
    obtain ⟨variant, serves⟩ := offers_iff_exists_variant.mp offered
    rw [has.staticSize_eq pairMember] at short ⊢
    obtain ⟨stored, runs, expands⟩ := has.exists_run serves
    have known := expands.staticWidth_eq
    rw [← known, ← Nat.zero_add (StoredField.staticWidth stored)] at short ⊢
    rw [runs.encode_eq]
    exact StoredField.encodeFields_of_short short

/-- A line whose length is no integer is written up to there, with its start.  In two
bytes no line is begun. -/
theorem failed_encode_leaves_clean_cut_line :
    ∃ codec ∈ Drawing.lines.codecs,
      codec.HasShape Drawing.lineShape ∧
        (∃ cause bytes,
          codec.encode (.ordered .big)
              (Drawing.greenLine.set "length" (.text "long"))
              [9, 9, 9, 9, 9, 9, 9] =
            .error cause (bytes ++ [9, 9, 9]) ∧
            Leaf.encoding? Drawing.greenLine
                ((Drawing.lineShape.leaves .big).take 3) =
              some bytes) ∧
          ∀ record,
            codec.encode (.ordered .big) record [9, 9] =
              .error (.bufferTooSmall 3 2) [9, 9] := by
  obtain ⟨codec, member, compiled, has⟩ := Drawing.exists_codec_of_lineShape
  obtain ⟨_, fails⟩ :=
    failed_encode_leaves_clean_cut Drawing.onlyEnums_colours
      (Catalog.reached_compile _ _ _) member
  obtain ⟨cuts, short⟩ := fails Drawing.lineShape has
  refine ⟨codec, member, has, ?_, ?_⟩
  · have failed :
        codec.encode (.ordered .big)
            (Drawing.greenLine.set "length" (.text "long"))
            [9, 9, 9, 9, 9, 9, 9] =
          .error (.typeMismatch "length" "an integer")
            [1, 0xFF, 0xFE, 4, 9, 9, 9] := by
      cases compiled
      rfl
    obtain ⟨written, bytes, gets, _, encoded, width, _, cut⟩ :=
      cuts _ _ _ _ _ failed
    have first : written = (Drawing.lineShape.leaves .big).take 3 := by
      cases compiled
      cases gets
      rfl
    rw [first] at encoded width
    have room : bytes.length = 4 := width
    rw [room] at cut
    exact ⟨_, bytes, by rw [failed, cut]; rfl, encoded⟩
  · intro record
    obtain ⟨pair, pairMember, size⟩ :
        ∃ pair ∈ codec.generated.codecs, pair.staticSize = 3 := by
      cases compiled
      exact ⟨_, List.mem_cons_self, rfl⟩
    have offered := Drawing.offers_ordered_of_line compiled .big
    have untouched :=
      short (.ordered .big) offered pair pairMember record [9, 9]
        (by rw [size]; decide)
    rw [size] at untouched
    exact untouched

end PackedRecord.RecordCodec
