import PackedRecord.Bytes.Writer

/-!
# Checked access to buffers

Words are read from and written to a span of a buffer, and nested codecs run on
the tail of a buffer from an offset.  Each access checks first that the span is
there, and a nested codec's reported length is checked against what it was
handed.
-/

namespace PackedRecord

namespace Bytes

/-- The greatest size that an error can state. -/
def greatestSize : Nat :=
  2 ^ 64 - 1

def require (available needed : Nat) : Except CodecError Unit :=
  if available < needed then
    .error (.bufferTooSmall needed available)
  else
    .ok ()

/-- Fails unless a span of the given width at the offset lies in a buffer of the
given length.  The need stated by the error stays within a size. -/
def requireSpan (length offset width : Nat) : Except CodecError Unit :=
  if offset + width ≤ length then
    .ok ()
  else
    .error (.bufferTooSmall (min (offset + width) greatestSize) length)

/-- Fails if a nested codec reported more bytes than it was handed. -/
def checkReported (offset reported available : Nat) : Except CodecError Unit :=
  if reported > available then
    .error (.invalidLength offset reported available)
  else
    .ok ()

def span (buffer : Bytes) (offset width : Nat) : Bytes :=
  (buffer.drop offset).take width

/-- The buffer with other bytes from the offset on. -/
def overwrite (buffer : Bytes) (offset : Nat) (written : Bytes) : Bytes :=
  buffer.take offset ++ written ++ buffer.drop (offset + written.length)

def readWord (buffer : Bytes) (offset width : Nat) (order : ByteOrder) :
    Except CodecError UInt64 := do
  requireSpan buffer.length offset width
  return UInt64.ofNat (order.numberOf (buffer.span offset width))

/-- Runs a decoder on the tail of the buffer from an offset. -/
def decodeNested {value : Type} (buffer : Bytes) (offset : Nat)
    (decode : Bytes → Except CodecError (value × Nat)) :
    Except CodecError (value × Nat) := do
  require buffer.length offset
  let tail := buffer.drop offset
  let (decoded, consumed) ← decode tail
  checkReported offset consumed tail.length
  return (decoded, consumed)

theorem length_overwrite
    {buffer written : Bytes} {offset : Nat}
    (inside : offset + written.length ≤ buffer.length) :
    (buffer.overwrite offset written).length = buffer.length := by
  simp only [overwrite, List.length_append, List.length_take, List.length_drop]
  omega

end Bytes

namespace Writer

def require (needed : Nat) : Writer Unit := fun before =>
  ofExcept (Bytes.require before.length needed) before

def write (offset : Nat) (written : Bytes) : Writer Unit := fun before =>
  match Bytes.requireSpan before.length offset written.length with
  | .ok () => .ok () (before.overwrite offset written)
  | .error cause => .error cause before

def writeWord (offset width : Nat) (order : ByteOrder) (word : UInt64) :
    Writer Unit :=
  write offset (order.bytesOf width word.toNat)

/-- Runs an encoder on the tail of the buffer from an offset.  What it wrote
stays, also if it fails or reports too much. -/
def encodeNested (offset : Nat) (encode : Writer Nat) : Writer Nat :=
  fun before =>
    match Bytes.require before.length offset with
    | .error cause => .error cause before
    | .ok () =>
        match encode (before.drop offset) with
        | .error cause tail => .error cause (before.take offset ++ tail)
        | .ok written tail =>
            match
              Bytes.checkReported offset written (before.length - offset)
            with
            | .error cause => .error cause (before.take offset ++ tail)
            | .ok () => .ok written (before.take offset ++ tail)

theorem KeepsLength.require (needed : Nat) :
    KeepsLength (Writer.require needed) :=
  fun before => KeepsLength.ofExcept (Bytes.require before.length needed) before

theorem KeepsLength.write (offset : Nat) (written : Bytes) :
    KeepsLength (Writer.write offset written) := by
  intro before
  unfold Writer.write Bytes.requireSpan
  by_cases inside : offset + written.length ≤ before.length
  · simp only [inside, if_true]
    exact Bytes.length_overwrite inside
  · simp only [inside, if_false]
    rfl

theorem KeepsLength.writeWord
    (offset width : Nat) (order : ByteOrder) (word : UInt64) :
    KeepsLength (Writer.writeWord offset width order word) :=
  KeepsLength.write offset _

theorem KeepsLength.encodeNested
    (offset : Nat) {encode : Writer Nat} (keeps : KeepsLength encode) :
    KeepsLength (Writer.encodeNested offset encode) := by
  intro before
  unfold Writer.encodeNested Bytes.require
  by_cases short : before.length < offset
  · simp only [short, if_true]
    rfl
  · simp only [short, if_false]
    have joined : ∀ tail : Bytes, tail.length = (before.drop offset).length →
        (before.take offset ++ tail).length = before.length := by
      intro tail tailLength
      rw [List.length_append, tailLength, ← List.length_append,
        List.take_append_drop]
    have kept := keeps (before.drop offset)
    cases outcome : encode (before.drop offset) with
    | error cause tail =>
        rw [outcome] at kept
        exact joined tail kept
    | ok written tail =>
        rw [outcome] at kept
        simp only
        cases Bytes.checkReported offset written (before.length - offset) with
        | error cause => exact joined tail kept
        | ok _ => exact joined tail kept

end Writer

end PackedRecord
