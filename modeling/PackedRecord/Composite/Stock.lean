import PackedRecord.Composite

/-!
# Stock composites

Ready-made composites: text padded to a fixed size, bytes after a length, and
three small ones that show which operation was called, report a length of one's
choice, or fail.  None of them checks the operation against its contract.
-/

namespace PackedRecord.Composite

def utf8 (content : String) : Bytes :=
  content.toUTF8.toList

/-- The text that some bytes spell, or the bytes themselves if they are no valid
UTF-8. -/
def textOrBytes (content : Bytes) : Value :=
  match String.fromUTF8? ⟨content.toArray⟩ with
  | some text => .text text
  | none => .bytes content

/-- Text of a fixed size: it ends at the first zero byte, is cut at the size, and
is filled with zeros up to it. -/
def paddedText (size : Nat) (contract : Contract) : Composite where
  contract := contract
  decode _ buffer := do
    Bytes.require buffer.length size
    return (textOrBytes ((buffer.take size).takeWhile (· ≠ 0)), size)
  encode _ value :=
    match value.text? with
    | none => throw (.typeMismatch "text" "text")
    | some content => do
        Writer.require size
        let kept := (utf8 content).take size
        Writer.write 0 (kept ++ List.replicate (size - kept.length) 0)
        return size
  encode_keepsLength _ value := by
    split
    · exact Writer.KeepsLength.throw _
    · exact .bind (.require _) fun _ => .bind (.write _ _) fun _ => .pure _

/-- The width and the order of the length in front of prefixed bytes. -/
def prefixShape : Operation → Nat × ByteOrder
  | .generic => (1, .little)
  | .ordered order => (2, order)

/-- Bytes after their count, which takes one byte, or two in the order of the
operation. -/
def prefixedBytes (contract : Contract) : Composite where
  contract := contract
  decode operation buffer := do
    let (width, order) := prefixShape operation
    let count ← buffer.readWord 0 width order
    Bytes.require buffer.length (width + count.toNat)
    return (.bytes (buffer.span width count.toNat), width + count.toNat)
  encode operation value :=
    let (width, order) := prefixShape operation
    match value with
    | .bytes content =>
        if content.length < 256 ^ width then do
          Writer.require (width + content.length)
          Writer.writeWord 0 width order (UInt64.ofNat content.length)
          Writer.write width content
          return width + content.length
        else
          throw (.valueOutOfRange "prefixed" content.length)
    | _ => throw (.typeMismatch "prefixed" "bytes")
  encode_keepsLength operation value := by
    dsimp only
    split
    · split
      · exact .bind (.require _) fun _ => .bind (.writeWord _ _ _ _) fun _ =>
          .bind (.write _ _) fun _ => .pure _
      · exact .throw _
    · exact .throw _

def operationMark : Operation → UInt8
  | .generic => 0x67
  | .ordered .little => 0x6C
  | .ordered .big => 0x62

/-- One byte that marks the operation called; decoding gives the operation's name
instead. -/
def operationTag (contract : Contract) : Composite where
  contract := contract
  decode operation buffer := do
    Bytes.require buffer.length 1
    return (.text (operation.name "decode"), 1)
  encode operation _ := do
    Writer.require 1
    Writer.write 0 [operationMark operation]
    return 1
  encode_keepsLength _ _ :=
    .bind (.require _) fun _ => .bind (.write _ _) fun _ => .pure _

/-- A composite that claims a length whatever the buffer holds: decoding gives
the length of the buffer, encoding fills the claimed part of it. -/
def claiming (size : Nat) (contract : Contract) : Composite where
  contract := contract
  decode _ buffer := .ok (.unsigned (UInt64.ofNat buffer.length), size)
  encode _ _ := fun before =>
    let filled := List.replicate (min size before.length) 0xEE
    .ok size (before.overwrite 0 filled)
  encode_keepsLength _ _ := by
    intro before
    exact Bytes.length_overwrite (by
      simp only [List.length_replicate, Nat.zero_add]
      exact Nat.min_le_right _ _)

def failing (contract : Contract) : Composite where
  contract := contract
  decode _ _ := .error (.missingField "boom")
  encode _ _ := throw (.missingField "boom")
  encode_keepsLength _ _ := .throw _

end PackedRecord.Composite
