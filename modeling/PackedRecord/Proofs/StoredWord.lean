import Mathlib.Data.List.Induction
import PackedRecord.Proofs.Agreement
import PackedRecord.Proofs.ByteOrderMirror

/-!
# Words in a buffer

A word of at most eight bytes is stored in a span of a buffer, and loaded from there in the
same order or in the other.  Either the span lies in the buffer, and what is loaded follows
from what was stored, or nothing happens at all.

Words are taken apart and put together by arithmetic on numbers of any size.  A machine
shifts its words instead, byte after byte, and its sums of sizes wrap around.  The second
half of this module follows both accesses in that way.
-/

namespace PackedRecord

/-! ## Numbers with their bytes in reverse -/

namespace Bytes

/-- The number whose bytes are those of another number in reverse.  Bytes are counted up to
a width; higher ones are dropped. -/
def reversedNumber : Nat → Nat → Nat
  | 0, _ => 0
  | width + 1, number =>
      256 ^ width * (number % 256) + reversedNumber width (number / 256)

theorem toNatLittle_append (front back : Bytes) :
    toNatLittle (front ++ back) =
      toNatLittle front + 256 ^ front.length * toNatLittle back := by
  induction front with
  | nil => simp [toNatLittle]
  | cons byte rest inductionHypothesis =>
      rw [List.cons_append, toNatLittle, toNatLittle, inductionHypothesis,
        List.length_cons, Nat.pow_succ', Nat.mul_add, Nat.mul_assoc,
        Nat.add_assoc]

theorem toNatLittle_reverse_ofNatLittle (width number : Nat) :
    toNatLittle (ofNatLittle width number).reverse =
      reversedNumber width number := by
  induction width generalizing number with
  | zero => rfl
  | succ width inductionHypothesis =>
      have lowest : toNatLittle [UInt8.ofNat number] = number % 256 :=
        UInt8.toNat_ofNat'
      rw [ofNatLittle, List.reverse_cons, toNatLittle_append,
        inductionHypothesis, lowest, List.length_reverse, length_ofNatLittle,
        reversedNumber, Nat.add_comm]

end Bytes

namespace ByteOrder

private theorem numberOf_opposite_bytesOf (order : ByteOrder) (width number : Nat) :
    order.opposite.numberOf (order.bytesOf width number) =
      Bytes.reversedNumber width number := by
  cases order with
  | little => exact Bytes.toNatLittle_reverse_ofNatLittle width number
  | big => exact Bytes.toNatLittle_reverse_ofNatLittle width number

/-- The other order tells the same bytes as the reversed number. -/
example : big.numberOf (little.bytesOf 4 0x01020304) = 0x04030201 := by
  decide

end ByteOrder

/-! ## Storing and loading -/

private theorem Bytes.overwrite_span
    {buffer : Bytes} {offset width : Nat}
    (inside : offset + width ≤ buffer.length) :
    buffer.overwrite offset (buffer.span offset width) = buffer := by
  rw [overwrite, length_span inside, span, List.append_assoc,
    ← List.drop_drop, List.take_append_drop, List.take_append_drop]

section Loading

variable {buffer after : Bytes} {offset width : Nat} {order : ByteOrder}
  {word loaded : UInt64}

/-- What is loaded is the number that the bytes of the span denote in the order of the
reader, whichever order the writer had. -/
theorem Writer.exists_readWord_of_writeWord
    (fits : width ≤ 8)
    (stored : Writer.writeWord offset width order word buffer = .ok () after)
    (reader : ByteOrder) :
    ∃ loaded,
      after.readWord offset width reader = .ok loaded ∧
        loaded.toNat =
          reader.numberOf (order.bytesOf width word.toNat) := by
  obtain ⟨inside, found⟩ := span_of_writeWord stored
  have written : (order.bytesOf width word.toNat).length ≤ 8 := by
    rw [ByteOrder.length_bytesOf]
    exact fits
  refine ⟨_, Bytes.readWord_eq_ok.mpr ⟨inside, rfl⟩, ?_⟩
  rw [found]
  exact reader.toNat_word_of_fits written

theorem Writer.writeWord_of_readWord
    (fits : width ≤ 8)
    (read : buffer.readWord offset width order = .ok loaded) :
    Writer.writeWord offset width order loaded buffer = .ok () buffer := by
  obtain ⟨inside, denoted⟩ := Bytes.readWord_eq_ok.mp read
  have length := Bytes.length_span inside
  have number : loaded.toNat = order.numberOf (buffer.span offset width) := by
    rw [denoted]
    apply order.toNat_word_of_fits
    rw [length]
    exact fits
  have bytes : order.bytesOf width loaded.toNat = buffer.span offset width := by
    have rebuilt := order.bytesOf_numberOf (buffer.span offset width)
    rw [length] at rebuilt
    rw [number]
    exact rebuilt
  rw [writeWord_eq_ok, bytes]
  exact ⟨inside, Bytes.overwrite_span inside⟩

end Loading

/-! ## Words by shifts -/

namespace Bytes

/-- The word that bytes are shifted into, the first one highest. -/
def shiftedIn (bytes : Bytes) : UInt64 :=
  bytes.foldl (fun word byte => word <<< 8 ||| byte.toUInt64) 0

/-- The byte of a word at an index, counted from the lowest byte. -/
def shiftedOut (word : UInt64) (index : Nat) : UInt8 :=
  (word >>> UInt64.ofNat (8 * index)).toUInt8

private theorem shift_or_eq (word : UInt64) (byte : UInt8) :
    word <<< 8 ||| byte.toUInt64 =
      UInt64.ofNat (byte.toNat + 256 * word.toNat) := by
  have small : byte.toNat < 2 ^ 8 := byte.toNat_lt
  have shifted :
      (word <<< 8).toNat = (word.toNat % 2 ^ 56) <<< 8 := by
    rw [UInt64.toNat_shiftLeft, Nat.shiftLeft_eq, Nat.shiftLeft_eq]
    show word.toNat * 2 ^ 8 % 2 ^ 64 = _
    omega
  apply UInt64.toNat_inj.mp
  rw [UInt64.toNat_or, shifted, UInt8.toNat_toUInt64,
    ← Nat.shiftLeft_add_eq_or_of_lt small, Nat.shiftLeft_eq,
    UInt64.toNat_ofNat']
  omega

private theorem shiftedIn_eq (bytes : Bytes) :
    shiftedIn bytes = UInt64.ofNat (ByteOrder.big.numberOf bytes) := by
  induction bytes using List.reverseRecOn with
  | nil => rfl
  | append_singleton front byte inductionHypothesis =>
      have number :
          ByteOrder.big.numberOf (front ++ [byte]) =
            byte.toNat + 256 * ByteOrder.big.numberOf front := by
        simp only [ByteOrder.numberOf, List.reverse_append, List.reverse_cons,
          List.reverse_nil, List.nil_append, List.cons_append, toNatLittle]
      have step :
          shiftedIn (front ++ [byte]) =
            shiftedIn front <<< 8 ||| byte.toUInt64 := by
        simp only [shiftedIn, List.foldl_append, List.foldl_cons, List.foldl_nil]
      rw [step, inductionHypothesis, shift_or_eq, number]
      apply UInt64.toNat_inj.mp
      simp only [UInt64.toNat_ofNat']
      omega

private theorem shiftedOut_eq (word : UInt64) {index : Nat} (inside : index < 8) :
    shiftedOut word index = UInt8.ofNat (word.toNat / 256 ^ index) := by
  have shift : (UInt64.ofNat (8 * index)).toNat % 64 = 8 * index := by
    rw [UInt64.toNat_ofNat']
    omega
  apply UInt8.toNat_inj.mp
  rw [shiftedOut, UInt64.toNat_toUInt8, UInt64.toNat_shiftRight, shift,
    Nat.shiftRight_eq_div_pow, Nat.pow_mul, UInt8.toNat_ofNat']

end Bytes

namespace ByteOrder

/-- The word that bytes in this order are shifted into, the highest one first. -/
def shiftedIn (order : ByteOrder) (bytes : Bytes) : UInt64 :=
  match order with
  | little => Bytes.shiftedIn bytes.reverse
  | big => Bytes.shiftedIn bytes

private theorem shiftedIn_eq (order : ByteOrder) (bytes : Bytes) :
    order.shiftedIn bytes = UInt64.ofNat (order.numberOf bytes) := by
  cases order with
  | little =>
      rw [shiftedIn, Bytes.shiftedIn_eq, numberOf, numberOf,
        List.reverse_reverse]
  | big => exact bytes.shiftedIn_eq

/-- The place in a span at which a byte of a word stands. -/
def place (order : ByteOrder) (width index : Nat) : Nat :=
  match order with
  | little => index
  | big => width - 1 - index

private theorem place_lt
    (order : ByteOrder) {width index : Nat} (inside : index < width) :
    order.place width index < width := by
  cases order with
  | little => exact inside
  | big =>
      rw [place]
      omega

private theorem place_place
    (order : ByteOrder) {width index : Nat} (inside : index < width) :
    order.place width (order.place width index) = index := by
  cases order with
  | little => rfl
  | big =>
      simp only [place]
      omega

private theorem getElem?_bytesOf
    (order : ByteOrder) {width index : Nat} (inside : index < width)
    (number : Nat) :
    (order.bytesOf width number)[order.place width index]? =
      some (UInt8.ofNat (number / 256 ^ index)) := by
  have lowFirst :
      (Bytes.ofNatLittle width number)[index]? =
        some (UInt8.ofNat (number / 256 ^ index)) := by
    induction width generalizing index number with
    | zero => omega
    | succ width inductionHypothesis =>
        cases index with
        | zero => simp [Bytes.ofNatLittle]
        | succ index =>
            rw [Bytes.ofNatLittle, List.getElem?_cons_succ,
              inductionHypothesis (Nat.lt_of_succ_lt_succ inside),
              Nat.div_div_eq_div_mul, Nat.pow_succ']
  cases order with
  | little => exact lowFirst
  | big =>
      have length := Bytes.length_ofNatLittle width number
      have bound : width - 1 - index < width := by omega
      have mirrored : width - 1 - (width - 1 - index) = index := by omega
      rw [place, bytesOf, List.getElem?_reverse (by rw [length]; exact bound),
        length, mirrored]
      exact lowFirst

/-- A span after some bytes of a word were put into it, from the lowest on. -/
def putInto (order : ByteOrder) (width : Nat) (word : UInt64) (span : Bytes)
    (count : Nat) : Bytes :=
  (List.range count).foldl
    (fun bytes index =>
      bytes.set (order.place width index) (Bytes.shiftedOut word index))
    span

section PutInto

variable (order : ByteOrder) {width : Nat} (word : UInt64) {span : Bytes}

private theorem putInto_succ (count : Nat) :
    order.putInto width word span (count + 1) =
      (order.putInto width word span count).set (order.place width count)
        (Bytes.shiftedOut word count) := by
  simp only [putInto, List.range_succ, List.foldl_append, List.foldl_cons,
    List.foldl_nil]

private theorem length_putInto (count : Nat) :
    (order.putInto width word span count).length = span.length := by
  induction count with
  | zero => rfl
  | succ count inductionHypothesis =>
      rw [putInto_succ, List.length_set, inductionHypothesis]

/-- Each byte is in its place as soon as it was put there, and no later one displaces
it. -/
private theorem getElem?_putInto
    (length : span.length = width) {count index : Nat} (upTo : count ≤ width)
    (before : index < count) :
    (order.putInto width word span count)[order.place width index]? =
      some (Bytes.shiftedOut word index) := by
  induction count with
  | zero => omega
  | succ count inductionHypothesis =>
      have inside : order.place width index < width :=
        order.place_lt (by omega)
      rw [putInto_succ]
      by_cases latest : index = count
      · rw [latest] at inside ⊢
        apply List.getElem?_set_self
        rw [length_putInto, length]
        exact inside
      · have apart :
            order.place width count ≠ order.place width index := by
          intro same
          have mirrored := congrArg (order.place width) same
          rw [order.place_place (by omega), order.place_place (by omega)]
            at mirrored
          exact latest mirrored.symm
        rw [List.getElem?_set_ne apart]
        exact inductionHypothesis (by omega) (by omega)

private theorem putInto_eq (length : span.length = width) (fits : width ≤ 8) :
    order.putInto width word span width = order.bytesOf width word.toNat := by
  apply List.ext_getElem?
  intro position
  by_cases inside : position < width
  · have index := order.place_lt inside
    have put :=
      order.getElem?_putInto word length (Nat.le_refl width) index
    have taken := order.getElem?_bytesOf index word.toNat
    rw [order.place_place inside] at put taken
    rw [put, taken, Bytes.shiftedOut_eq word (by omega)]
  · rw [List.getElem?_eq_none, List.getElem?_eq_none]
    · rw [length_bytesOf]
      exact Nat.le_of_not_lt inside
    · rw [length_putInto, length]
      exact Nat.le_of_not_lt inside

end PutInto

end ByteOrder

/-! ## Accesses of a machine -/

namespace Bytes

/-- The check of a span by sums that wrap around.  A sum that did is below its summands,
and the need is then stated as the greatest size. -/
def requireSpanWrapping (length offset width : UInt64) :
    Except CodecError Unit :=
  if offset + width < offset then
    .error (.bufferTooSmall greatestSize length.toNat)
  else if offset + width ≤ length then
    .ok ()
  else
    .error (.bufferTooSmall (offset + width).toNat length.toNat)

theorem requireSpan_eq_wrapping (length offset width : UInt64) :
    requireSpan length.toNat offset.toNat width.toNat =
      requireSpanWrapping length offset width := by
  have lengthBound := length.toNat_lt
  have offsetBound := offset.toNat_lt
  have widthBound := width.toNat_lt
  have sum :
      (offset + width).toNat = (offset.toNat + width.toNat) % 2 ^ 64 :=
    UInt64.toNat_add offset width
  unfold requireSpan requireSpanWrapping greatestSize
  simp only [UInt64.lt_iff_toNat_lt, UInt64.le_iff_toNat_le]
  by_cases wraps : (offset + width).toNat < offset.toNat
  · have outside : ¬ offset.toNat + width.toNat ≤ length.toNat := by omega
    have need :
        min (offset.toNat + width.toNat) (2 ^ 64 - 1) = 2 ^ 64 - 1 := by
      omega
    rw [if_neg outside, if_pos wraps, need]
  · have exact : (offset + width).toNat = offset.toNat + width.toNat := by
      omega
    have need :
        min (offset.toNat + width.toNat) (2 ^ 64 - 1) =
          offset.toNat + width.toNat := by
      omega
    rw [if_neg wraps, exact, need]

def readWordByShifts (buffer : Bytes) (offset : UInt64) (width : Nat)
    (order : ByteOrder) : Except CodecError UInt64 := do
  requireSpanWrapping (UInt64.ofNat buffer.length) offset (UInt64.ofNat width)
  return order.shiftedIn (buffer.span offset.toNat width)

end Bytes

def Writer.writeWordByShifts (offset : UInt64) (width : Nat) (order : ByteOrder)
    (word : UInt64) : Writer Unit := fun before =>
  match
    Bytes.requireSpanWrapping (UInt64.ofNat before.length) offset
      (UInt64.ofNat width)
  with
  | .ok () =>
      let span := before.span offset.toNat width
      .ok () (before.overwrite offset.toNat (order.putInto width word span width))
  | .error cause => .error cause before

section Machine

variable {buffer : Bytes} (size : buffer.length < 2 ^ 64) {width : Nat}
  (fits : width ≤ 8) (offset : UInt64)
include size fits

theorem Bytes.requireSpan_eq_wrapping_of_size :
    requireSpan buffer.length offset.toNat width =
      requireSpanWrapping (UInt64.ofNat buffer.length) offset
        (UInt64.ofNat width) := by
  rw [← requireSpan_eq_wrapping, UInt64.toNat_ofNat_of_lt' size,
    UInt64.toNat_ofNat_of_lt' (show width < 2 ^ 64 by omega)]

theorem Bytes.readWord_eq_byShifts (order : ByteOrder) :
    buffer.readWord offset.toNat width order =
      buffer.readWordByShifts offset width order := by
  unfold readWord readWordByShifts
  rw [requireSpan_eq_wrapping_of_size size fits offset, order.shiftedIn_eq]

theorem Writer.writeWord_eq_byShifts (order : ByteOrder) (word : UInt64) :
    Writer.writeWord offset.toNat width order word buffer =
      Writer.writeWordByShifts offset width order word buffer := by
  unfold Writer.writeWord Writer.write Writer.writeWordByShifts
  rw [ByteOrder.length_bytesOf,
    ← Bytes.requireSpan_eq_wrapping_of_size size fits offset]
  unfold Bytes.requireSpan
  by_cases inside : offset.toNat + width ≤ buffer.length
  · rw [if_pos inside]
    simp only [order.putInto_eq word (Bytes.length_span inside) fits]
  · rw [if_neg inside]

end Machine

/-! ## Nothing lost, or nothing done -/

/-- A word is stored in a span of a buffer and loaded from it without loss, or nothing
happens. -/
structure Bytes.KeepsWord (buffer : Bytes) (offset width : Nat)
    (order : ByteOrder) (word : UInt64) : Prop where
  /-- Loading fails exactly for want of room. -/
  load_fails :
    ∀ cause,
      buffer.readWord offset width order = .error cause ↔
        buffer.length < offset + width ∧
          cause = buffer.lackOfRoom offset width
  /-- So does storing, and then the buffer is left as it was. -/
  store_fails :
    ∀ cause left,
      Writer.writeWord offset width order word buffer = .error cause left ↔
        buffer.length < offset + width ∧
          cause = buffer.lackOfRoom offset width ∧ left = buffer
  /-- Storing changes no byte outside of the span. -/
  store_confined :
    ∀ after,
      Writer.writeWord offset width order word buffer = .ok () after →
        after.length = buffer.length ∧
          buffer.SameOutside after offset (offset + width)
  /-- What was stored is loaded, as far as the width goes. -/
  stored_loads :
    ∀ after,
      Writer.writeWord offset width order word buffer = .ok () after →
        ∃ loaded,
          after.readWord offset width order = .ok loaded ∧
            loaded.toNat = word.toNat % 256 ^ width
  /-- In the other order it is loaded with its bytes in reverse. -/
  stored_loads_reversed :
    ∀ after,
      Writer.writeWord offset width order word buffer = .ok () after →
        ∃ loaded,
          after.readWord offset width order.opposite = .ok loaded ∧
            loaded.toNat = reversedNumber width word.toNat
  /-- Storing what was loaded changes nothing. -/
  loaded_stores :
    ∀ loaded,
      buffer.readWord offset width order = .ok loaded →
        Writer.writeWord offset width order loaded buffer = .ok () buffer
  /-- Where lengths and offsets are sizes of a machine, its shifts and its sums that wrap
  around come to the same. -/
  by_shifts :
    buffer.length < 2 ^ 64 →
      ∀ place : UInt64,
        place.toNat = offset →
          buffer.readWord offset width order =
              buffer.readWordByShifts place width order ∧
            Writer.writeWord offset width order word buffer =
              Writer.writeWordByShifts place width order word buffer

/-- Words of at most eight bytes are stored and loaded exactly, or not at all. -/
theorem Bytes.words_kept_exactly
    (buffer : Bytes) (offset : Nat) {width : Nat} (fits : width ≤ 8)
    (order : ByteOrder) (word : UInt64) :
    buffer.KeepsWord offset width order word := by
  refine
    { load_fails := fun _ => readWord_eq_error
      store_fails := fun _ _ => Writer.writeWord_eq_error
      store_confined := ?_
      stored_loads := ?_
      stored_loads_reversed := ?_
      loaded_stores := fun _ => Writer.writeWord_of_readWord fits
      by_shifts := ?_ }
  · intro after stored
    have kept :=
      (Writer.KeepsLength.writeWord offset width order word).of_ok stored
    exact ⟨kept, Writer.sameOutside_of_writeWord stored⟩
  · intro after stored
    have found := Writer.exists_readWord_of_writeWord fits stored order
    rw [order.numberOf_bytesOf] at found
    exact found
  · intro after stored
    have found :=
      Writer.exists_readWord_of_writeWord fits stored order.opposite
    rw [order.numberOf_opposite_bytesOf] at found
    exact found
  · intro size place same
    rw [← same]
    exact ⟨readWord_eq_byShifts size fits place order,
      Writer.writeWord_eq_byShifts size fits place order word⟩

/-- Three bytes of a word, between two others that stay.  At the greatest offset the sum
with the width would wrap around, and there is no room. -/
theorem Bytes.words_kept_exactly_between_others :
    Writer.writeWord 1 3 .big 0x99AABBCC [10, 11, 12, 13, 14] =
        .ok () [10, 0xAA, 0xBB, 0xCC, 14] ∧
      (∃ loaded,
        readWord [10, 0xAA, 0xBB, 0xCC, 14] 1 3 .little = .ok loaded ∧
          loaded.toNat = 0xCCBBAA) ∧
        readWord [10, 11, 12, 13, 14] (2 ^ 64 - 1) 3 .big =
          .error (.bufferTooSmall (2 ^ 64 - 1) 5) := by
  have between :=
    words_kept_exactly [10, 11, 12, 13, 14] 1 (show 3 ≤ 8 by decide) .big
      0x99AABBCC
  have outside :=
    words_kept_exactly [10, 11, 12, 13, 14] (2 ^ 64 - 1)
      (show 3 ≤ 8 by decide) .big 0
  have stored :
      Writer.writeWord 1 3 .big 0x99AABBCC [10, 11, 12, 13, 14] =
        .ok () [10, 0xAA, 0xBB, 0xCC, 14] := by
    rfl
  obtain ⟨loaded, read, number⟩ := between.stored_loads_reversed _ stored
  have lacking := (outside.load_fails _).mpr ⟨by decide, rfl⟩
  exact ⟨stored, ⟨loaded, read, number.trans (by decide)⟩, lacking⟩

end PackedRecord
