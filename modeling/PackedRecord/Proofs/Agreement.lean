import PackedRecord.Proofs.Access

/-!
# Buffers that agree in part

Two buffers may hold the same bytes in one region and differ elsewhere.  A reader
of the region cannot tell them apart, and a writer of the region leaves the rest
as it was.  Both are said byte by byte, so that neighbouring regions join by
arithmetic alone.
-/

namespace PackedRecord

namespace Bytes

/-- Both buffers hold the same bytes from one place up to another. -/
def AgreeOn (first second : Bytes) (start stop : Nat) : Prop :=
  ∀ index, start ≤ index → index < stop → first[index]? = second[index]?

/-- A buffer is left as it was, but for the bytes from one place up to another. -/
def SameOutside (before after : Bytes) (start stop : Nat) : Prop :=
  ∀ index, index < start ∨ stop ≤ index → after[index]? = before[index]?

section Regions

variable {first second third before between after : Bytes}
  {start middle stop offset width : Nat}

theorem AgreeOn.symm (agree : first.AgreeOn second start stop) :
    second.AgreeOn first start stop :=
  fun index atLeast below => (agree index atLeast below).symm

theorem AgreeOn.trans
    (agree : first.AgreeOn second start stop)
    (agreeNext : second.AgreeOn third start stop) :
    first.AgreeOn third start stop :=
  fun index atLeast below =>
    (agree index atLeast below).trans (agreeNext index atLeast below)

theorem AgreeOn.within
    (agree : first.AgreeOn second start stop) {inner outer : Nat}
    (atLeast : start ≤ inner) (upTo : outer ≤ stop) :
    first.AgreeOn second inner outer :=
  fun index innerFrom outerBelow =>
    agree index (Nat.le_trans atLeast innerFrom)
      (Nat.lt_of_lt_of_le outerBelow upTo)

theorem AgreeOn.append
    (agree : first.AgreeOn second start middle)
    (agreeNext : first.AgreeOn second middle stop) :
    first.AgreeOn second start stop := by
  intro index atLeast below
  by_cases early : index < middle
  · exact agree index atLeast early
  · exact agreeNext index (Nat.le_of_not_lt early) below

theorem SameOutside.agreeOn_front
    (same : before.SameOutside after middle stop) (start : Nat) :
    after.AgreeOn before start middle :=
  fun index _ below => same index (Or.inl below)

theorem SameOutside.trans
    (same : before.SameOutside between start middle)
    (sameNext : between.SameOutside after middle stop)
    (upTo : start ≤ middle) (atLeast : middle ≤ stop) :
    before.SameOutside after start stop := by
  intro index outside
  rw [sameNext index (by omega), same index (by omega)]

/-- Buffers agree on a region when its spans are the same. -/
theorem agreeOn_iff_span :
    first.AgreeOn second offset (offset + width) ↔
      first.span offset width = second.span offset width := by
  unfold AgreeOn span
  constructor
  · intro agree
    apply List.ext_getElem?
    intro index
    rw [List.getElem?_take, List.getElem?_take]
    by_cases inside : index < width
    · rw [if_pos inside, if_pos inside, List.getElem?_drop, List.getElem?_drop]
      exact agree (offset + index) (by omega) (by omega)
    · rw [if_neg inside, if_neg inside]
  · intro same index atLeast below
    have entry := congrArg (fun bytes : Bytes => bytes[index - offset]?) same
    simp only [List.getElem?_take, List.getElem?_drop] at entry
    rw [if_pos (by omega), if_pos (by omega),
      Nat.add_sub_cancel' atLeast] at entry
    exact entry

theorem agreeOn_iff_take :
    first.AgreeOn second 0 stop ↔ first.take stop = second.take stop := by
  have asSpan := @agreeOn_iff_span first second 0 stop
  rw [Nat.zero_add] at asSpan
  exact asSpan

theorem SameOutside.drop_eq (same : before.SameOutside after start stop) :
    after.drop stop = before.drop stop := by
  apply List.ext_getElem?
  intro index
  rw [List.getElem?_drop, List.getElem?_drop]
  exact same (stop + index) (Or.inr (Nat.le_add_right _ _))

/-- A buffer that agrees with one at the front and is another one behind is the
front of the one before the rest of the other. -/
theorem eq_append_of_agreeOn
    (agree : after.AgreeOn first 0 stop)
    (same : before.SameOutside after 0 stop) :
    after = first.take stop ++ before.drop stop := by
  rw [← List.take_append_drop stop after, same.drop_eq,
    agreeOn_iff_take.mp agree]

end Regions

/-! ## Overwritten regions -/

section Overwrite

variable {before written : Bytes} {offset width : Nat}

theorem sameOutside_overwrite
    (length : written.length = width)
    (inside : offset + width ≤ before.length) :
    before.SameOutside (before.overwrite offset written) offset
      (offset + width) := by
  intro index outside
  have front : (before.take offset).length = offset := by
    rw [List.length_take]
    omega
  rw [overwrite, List.append_assoc, List.getElem?_append, front]
  by_cases early : index < offset
  · rw [if_pos early, List.getElem?_take, if_pos early]
  · rw [if_neg early, List.getElem?_append, if_neg (by omega),
      List.getElem?_drop]
    congr 1
    omega

theorem span_overwrite
    (length : written.length = width)
    (inside : offset + width ≤ before.length) :
    (before.overwrite offset written).span offset width = written := by
  have front : (before.take offset).length = offset := by
    rw [List.length_take]
    omega
  rw [overwrite, span, List.append_assoc, List.drop_left' front,
    List.take_left' length]

end Overwrite

/-! ## Rewritten tails -/

section Tail

variable {before tail : Bytes} {offset : Nat}

theorem drop_take_append (inside : offset ≤ before.length) :
    (before.take offset ++ tail).drop offset = tail := by
  apply List.drop_left'
  rw [List.length_take]
  omega

theorem sameOutside_take_append
    (inside : offset ≤ before.length) {count : Nat}
    (kept : tail.drop count = (before.drop offset).drop count) :
    before.SameOutside (before.take offset ++ tail) offset
      (offset + count) := by
  intro index outside
  have front : (before.take offset).length = offset := by
    rw [List.length_take]
    omega
  rw [List.getElem?_append, front]
  by_cases early : index < offset
  · rw [if_pos early, List.getElem?_take, if_pos early]
  · have entry :=
      congrArg (fun bytes : Bytes => bytes[index - offset - count]?) kept
    simp only [List.getElem?_drop] at entry
    have inTail : count + (index - offset - count) = index - offset := by omega
    have inBefore : offset + (index - offset) = index := by omega
    rw [if_neg early]
    rw [inTail, inBefore] at entry
    exact entry

end Tail

end Bytes

/-! ## Words in their spans -/

section Word

variable {before after : Bytes} {offset width : Nat} {order : ByteOrder}
  {word : UInt64} {result : Unit}

theorem Writer.span_of_writeWord
    (stored :
      Writer.writeWord offset width order word before = .ok result after) :
    offset + width ≤ after.length ∧
      after.span offset width = order.bytesOf width word.toNat := by
  have kept := (KeepsLength.writeWord offset width order word).of_ok stored
  have written := order.length_bytesOf width word.toNat
  obtain ⟨inside, same⟩ := writeWord_eq_ok.mp stored
  constructor
  · rw [kept]
    exact inside
  · rw [← same]
    exact Bytes.span_overwrite written inside

theorem Writer.sameOutside_of_writeWord
    (stored :
      Writer.writeWord offset width order word before = .ok result after) :
    before.SameOutside after offset (offset + width) := by
  have written := order.length_bytesOf width word.toNat
  obtain ⟨inside, same⟩ := writeWord_eq_ok.mp stored
  rw [← same]
  exact Bytes.sameOutside_overwrite written inside

end Word

end PackedRecord
