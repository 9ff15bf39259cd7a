import PackedRecord.Bytes.Access

/-!
# When an access succeeds

Each checked access succeeds under one condition and then has one outcome.  The
equivalences of this module say both at once, so that a run that succeeded can be
taken apart, and a run that has to succeed can be put together, without opening
the access itself.
-/

namespace PackedRecord

/-! ## Runs in sequence -/

section Except

variable {cause first second : Type}

theorem bind_eq_ok
    {run : Except cause first} {next : first → Except cause second}
    {result : second} :
    (run >>= next) = .ok result ↔
      ∃ value, run = .ok value ∧ next value = .ok result := by
  constructor
  · intro done
    cases run with
    | ok value => exact ⟨value, rfl, done⟩
    | error cause => cases done
  · rintro ⟨value, rfl, done⟩
    exact done

theorem pure_eq_ok {value result : first} :
    (pure value : Except cause first) = .ok result ↔ value = result := by
  show Except.ok value = .ok result ↔ value = result
  exact Except.ok.injEq value result ▸ Iff.rfl

theorem bind_eq_error
    {run : Except cause first} {next : first → Except cause second}
    {failure : cause} :
    (run >>= next) = .error failure ↔
      run = .error failure ∨
        ∃ value, run = .ok value ∧ next value = .error failure := by
  constructor
  · intro failed
    cases run with
    | ok value => exact Or.inr ⟨value, rfl, failed⟩
    | error cause =>
        cases failed
        exact Or.inl rfl
  · rintro (rfl | ⟨value, rfl, failed⟩)
    · rfl
    · exact failed

/-- Steps that fail have one that fails behind steps that succeed. -/
theorem exists_step_of_foldlM_eq_error
    {step : second → first → Except cause second} {items : List first}
    {state : second} {failure : cause}
    (failed : items.foldlM step state = .error failure) :
    ∃ earlier item later between,
      items = earlier ++ item :: later ∧
        earlier.foldlM step state = .ok between ∧
          step between item = .error failure := by
  induction items generalizing state with
  | nil =>
      rw [List.foldlM_nil] at failed
      cases failed
  | cons item rest inductionHypothesis =>
      rw [List.foldlM_cons, bind_eq_error] at failed
      rcases failed with here | ⟨next, passed, failedLater⟩
      · exact ⟨[], item, rest, state, rfl, rfl, here⟩
      · obtain ⟨earlier, stopped, later, between, rfl, ran, failedThere⟩ :=
          inductionHypothesis failedLater
        refine ⟨item :: earlier, stopped, later, between, rfl, ?_, failedThere⟩
        rw [List.foldlM_cons, passed]
        exact ran

end Except

namespace Writer

variable {first second : Type}

theorem bind_apply
    (writer : Writer first) (next : first → Writer second) (before : Bytes) :
    (writer >>= next) before =
      match writer before with
      | .ok value between => next value between
      | .error cause between => .error cause between := by
  show EStateM.bind writer next before = _
  unfold EStateM.bind
  cases writer before <;> rfl

theorem bind_eq_ok
    {writer : Writer first} {next : first → Writer second}
    {before after : Bytes} {result : second} :
    (writer >>= next) before = .ok result after ↔
      ∃ value between,
        writer before = .ok value between ∧
          next value between = .ok result after := by
  rw [bind_apply]
  constructor
  · intro done
    cases outcome : writer before with
    | ok value between =>
        rw [outcome] at done
        exact ⟨value, between, rfl, done⟩
    | error cause between =>
        rw [outcome] at done
        cases done
  · rintro ⟨value, between, outcome, done⟩
    rw [outcome]
    exact done

theorem bind_eq_error
    {writer : Writer first} {next : first → Writer second}
    {before after : Bytes} {failure : CodecError} :
    (writer >>= next) before = .error failure after ↔
      writer before = .error failure after ∨
        ∃ value between,
          writer before = .ok value between ∧
            next value between = .error failure after := by
  rw [bind_apply]
  cases outcome : writer before with
  | error cause between => simp
  | ok value between =>
      constructor
      · intro failed
        exact Or.inr ⟨value, between, rfl, failed⟩
      · rintro (failed | ⟨_, _, same, failed⟩)
        · cases failed
        · cases same
          exact failed

/-- Steps that fail have one that fails behind steps that succeed. -/
theorem exists_step_of_foldlM_eq_error
    {step : second → first → Writer second} {items : List first}
    {state : second} {before after : Bytes} {failure : CodecError}
    (failed : items.foldlM step state before = .error failure after) :
    ∃ earlier item later reached between,
      items = earlier ++ item :: later ∧
        earlier.foldlM step state before = .ok reached between ∧
          step reached item between = .error failure after := by
  induction items generalizing state before with
  | nil => cases failed
  | cons item rest inductionHypothesis =>
      rw [List.foldlM_cons, bind_eq_error] at failed
      rcases failed with here | ⟨next, left, passed, failedLater⟩
      · exact ⟨[], item, rest, state, before, rfl, rfl, here⟩
      · obtain ⟨earlier, stopped, later, reached, between, rfl, ran,
          failedThere⟩ := inductionHypothesis failedLater
        refine ⟨item :: earlier, stopped, later, reached, between, rfl, ?_,
          failedThere⟩
        rw [List.foldlM_cons, bind_apply, passed]
        exact ran

theorem pure_eq_ok
    {value result : first} {before after : Bytes} :
    (pure value : Writer first) before = .ok result after ↔
      value = result ∧ before = after := by
  show EStateM.Result.ok value before = .ok result after ↔ _
  exact EStateM.Result.ok.injEq value before result after ▸ Iff.rfl

theorem ofExcept_eq_ok
    {found : Except CodecError first} {result : first} {before after : Bytes} :
    ofExcept found before = .ok result after ↔
      found = .ok result ∧ before = after := by
  cases found <;> simp [ofExcept]

theorem ofExcept_eq_error
    {found : Except CodecError first} {cause : CodecError}
    {before after : Bytes} :
    ofExcept found before = .error cause after ↔
      found = .error cause ∧ before = after := by
  cases found <;> simp [ofExcept]

end Writer

/-! ## Reading -/

namespace Bytes

theorem require_eq_ok {available needed : Nat} {result : Unit} :
    require available needed = .ok result ↔ needed ≤ available := by
  unfold require
  by_cases short : available < needed
  · simp [short]
  · simp [short, Nat.le_of_not_lt short]

theorem length_span
    {buffer : Bytes} {offset width : Nat}
    (inside : offset + width ≤ buffer.length) :
    (buffer.span offset width).length = width := by
  simp only [span, List.length_take, List.length_drop]
  omega

theorem readWord_eq_ok
    {buffer : Bytes} {offset width : Nat} {order : ByteOrder} {word : UInt64} :
    buffer.readWord offset width order = .ok word ↔
      offset + width ≤ buffer.length ∧
        word = UInt64.ofNat (order.numberOf (buffer.span offset width)) := by
  unfold readWord requireSpan
  by_cases inside : offset + width ≤ buffer.length
  · rw [if_pos inside]
    show Except.ok _ = Except.ok word ↔ _
    simp [inside, eq_comm]
  · rw [if_neg inside]
    show Except.error _ = Except.ok word ↔ _
    simp [inside]

/-- Why there is no room for a span. -/
def lackOfRoom (buffer : Bytes) (offset width : Nat) : CodecError :=
  .bufferTooSmall (min (offset + width) greatestSize) buffer.length

theorem requireSpan_eq_error
    {buffer : Bytes} {offset width : Nat} {cause : CodecError} :
    requireSpan buffer.length offset width = .error cause ↔
      buffer.length < offset + width ∧
        cause = buffer.lackOfRoom offset width := by
  unfold requireSpan lackOfRoom
  by_cases inside : offset + width ≤ buffer.length
  · simp [inside, Nat.not_lt.mpr inside]
  · simp [inside, Nat.lt_of_not_le inside, eq_comm]

theorem readWord_eq_error
    {buffer : Bytes} {offset width : Nat} {order : ByteOrder}
    {cause : CodecError} :
    buffer.readWord offset width order = .error cause ↔
      buffer.length < offset + width ∧
        cause = buffer.lackOfRoom offset width := by
  rw [readWord, bind_eq_error, requireSpan_eq_error]
  constructor
  · intro failed
    rcases failed with outside | ⟨_, _, absurdly⟩
    · exact outside
    · cases absurdly
  · exact Or.inl

theorem checkReported_eq_ok
    {offset reported available : Nat} {result : Unit} :
    checkReported offset reported available = .ok result ↔
      reported ≤ available := by
  unfold checkReported
  by_cases exceeds : reported > available
  · simp [exceeds]
  · simp [exceeds, Nat.le_of_not_lt exceeds]

theorem decodeNested_eq_ok
    {value : Type} {buffer : Bytes} {offset : Nat}
    {decode : Bytes → Except CodecError (value × Nat)}
    {decoded : value} {consumed : Nat} :
    buffer.decodeNested offset decode = .ok (decoded, consumed) ↔
      offset ≤ buffer.length ∧
        decode (buffer.drop offset) = .ok (decoded, consumed) ∧
          offset + consumed ≤ buffer.length := by
  unfold decodeNested
  simp only [bind_eq_ok, pure_eq_ok, require_eq_ok, checkReported_eq_ok,
    Prod.exists, exists_and_left, exists_const, List.length_drop,
    Prod.mk.injEq]
  constructor
  · rintro ⟨inside, found, count, outcome, room, rfl, rfl⟩
    exact ⟨inside, outcome, by omega⟩
  · rintro ⟨inside, outcome, room⟩
    exact ⟨inside, decoded, consumed, outcome, by omega, rfl, rfl⟩

end Bytes

/-! ## Writing -/

namespace Writer

theorem KeepsLength.of_ok
    {result : Type} {writer : Writer result} (keeps : KeepsLength writer)
    {before after : Bytes} {value : result}
    (done : writer before = .ok value after) :
    after.length = before.length := by
  have kept := keeps before
  rw [done] at kept
  exact kept

theorem require_eq_ok
    {needed : Nat} {before after : Bytes} {result : Unit} :
    Writer.require needed before = .ok result after ↔
      needed ≤ before.length ∧ before = after := by
  rw [Writer.require, ofExcept_eq_ok, Bytes.require_eq_ok]

theorem write_eq_ok
    {offset : Nat} {written before after : Bytes} {result : Unit} :
    Writer.write offset written before = .ok result after ↔
      offset + written.length ≤ before.length ∧
        before.overwrite offset written = after := by
  unfold Writer.write Bytes.requireSpan
  by_cases inside : offset + written.length ≤ before.length
  · simp [inside]
  · simp [inside]

theorem write_eq_error
    {offset : Nat} {written before left : Bytes} {cause : CodecError} :
    Writer.write offset written before = .error cause left ↔
      before.length < offset + written.length ∧
        cause = before.lackOfRoom offset written.length ∧ left = before := by
  unfold Writer.write Bytes.requireSpan Bytes.lackOfRoom
  by_cases inside : offset + written.length ≤ before.length
  · simp [inside, Nat.not_lt.mpr inside]
  · simp [inside, Nat.lt_of_not_le inside, eq_comm]

theorem writeWord_eq_ok
    {offset width : Nat} {order : ByteOrder} {word : UInt64}
    {before after : Bytes} {result : Unit} :
    Writer.writeWord offset width order word before = .ok result after ↔
      offset + width ≤ before.length ∧
        before.overwrite offset (order.bytesOf width word.toNat) = after := by
  rw [Writer.writeWord, write_eq_ok, ByteOrder.length_bytesOf]

theorem writeWord_eq_error
    {offset width : Nat} {order : ByteOrder} {word : UInt64}
    {before left : Bytes} {cause : CodecError} :
    Writer.writeWord offset width order word before = .error cause left ↔
      before.length < offset + width ∧
        cause = before.lackOfRoom offset width ∧ left = before := by
  rw [Writer.writeWord, write_eq_error, ByteOrder.length_bytesOf]

theorem encodeNested_eq_ok
    {offset written : Nat} {encode : Writer Nat} {before after : Bytes} :
    Writer.encodeNested offset encode before = .ok written after ↔
      offset ≤ before.length ∧
        ∃ tail, encode (before.drop offset) = .ok written tail ∧
          offset + written ≤ before.length ∧
            before.take offset ++ tail = after := by
  unfold Writer.encodeNested Bytes.require
  by_cases short : before.length < offset
  · rw [if_pos short]
    constructor
    · intro done
      cases done
    · rintro ⟨inside, _⟩
      omega
  · rw [if_neg short]
    cases outcome : encode (before.drop offset) with
    | error cause tail => simp
    | ok count tail =>
        unfold Bytes.checkReported
        by_cases exceeds : count > before.length - offset
        · simp only [if_pos exceeds, reduceCtorEq, EStateM.Result.ok.injEq,
            false_iff, not_and, not_exists]
          rintro inside _ ⟨rfl, rfl⟩ room
          omega
        · simp only [if_neg exceeds, EStateM.Result.ok.injEq]
          constructor
          · rintro ⟨rfl, joined⟩
            exact ⟨by omega, tail, ⟨rfl, rfl⟩, by omega, joined⟩
          · rintro ⟨_, _, ⟨rfl, rfl⟩, _, joined⟩
            exact ⟨rfl, joined⟩

end Writer

end PackedRecord
