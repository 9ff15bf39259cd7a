import PackedRecord.FieldKind
import PackedRecord.Offset

/-!
# Layouts

A layout places the fields of a record for one variant: how each is accessed, and
at which offset.  The fields follow one another without gaps.  Decoding and
encoding share the layout, so their offsets cannot differ.
-/

namespace PackedRecord

/-- The room that a field takes. -/
inductive Width
  | static (bytes : Nat)
  | reported (length : LengthVar)
  deriving DecidableEq, Repr

/-- How a placed field is read and written. -/
inductive Access
  | integer (type : IntegerType) (order : ByteOrder)
  | byte (signed : Bool)
  | enum (name : String) (underlying : IntegerType) (order : ByteOrder)
  /-- A composite, through one of its operations; it reports a length. -/
  | composite (name : String) (operation : Operation) (length : LengthVar)
  deriving DecidableEq, Repr

namespace Access

def width : Access → Width
  | integer type _ => .static type.width
  | byte _ => .static 1
  | enum _ underlying _ => .static underlying.width
  | composite _ _ length => .reported length

def length? : Access → Option LengthVar
  | composite _ _ length => some length
  | _ => none

end Access

namespace Offset

/-- The offset behind a field of the given width, where known sizes are added up as told. -/
def past (add : Nat → Nat → Nat) (offset : Offset) : Width → Offset
  | .static bytes => { offset with base := add offset.base bytes }
  | .reported length => offset.plus length

def after (offset : Offset) (width : Width) : Offset :=
  offset.past (· + ·) width

end Offset

structure PlacedField where
  name : String
  access : Access
  offset : Offset
  deriving DecidableEq, Repr

namespace PlacedField

def width (field : PlacedField) : Width :=
  field.access.width

end PlacedField

/-- The placed fields of one record for one variant. -/
structure Layout where
  record : String
  variant : Variant
  fields : List PlacedField
  total : Offset
  deriving DecidableEq, Repr

namespace Layout

/-- The bytes that the record takes at least: those known beforehand. -/
def staticSize (layout : Layout) : Nat :=
  layout.total.base

def lengthCount (layout : Layout) : Nat :=
  layout.total.lengths.length

/-- How a variant accesses a field.  A composite's length takes the first index
that no composite before it has.  A composite that offers the variant no
operation cannot be accessed. -/
def access (record : String) (variant : Variant) (next : Nat)
    (field : ClassifiedField) : Except GenerateError Access :=
  match field.kind with
  | .integer type => .ok (.integer type variant.order)
  | .byte signed => .ok (.byte signed)
  | .enum name underlying => .ok (.enum name underlying variant.order)
  | .composite name contract =>
      match contract.select variant with
      | some operation => .ok (.composite name operation { index := next })
      | none => .error (.missingContract record field.name name)

section Placing

variable (add : Nat → Nat → Nat) (record : String) (variant : Variant)

/-- Places fields one after another from an offset on, and gives the offset
behind the last. -/
def placeFrom (start : Offset) :
    List ClassifiedField →
      Except GenerateError (List PlacedField × Offset)
  | [] => .ok ([], start)
  | field :: rest => do
      let access ← access record variant start.lengths.length field
      let (placed, stop) ← placeFrom (start.past add access.width) rest
      return ({ name := field.name, access, offset := start } :: placed, stop)

/-- Lays out the fields of a record for a variant, where known sizes are added up as
told. -/
def layOut (fields : List ClassifiedField) : Except GenerateError Layout := do
  let (placed, total) ← placeFrom add record variant {} fields
  return { record, variant, fields := placed, total }

end Placing

def plan (record : String) (fields : List ClassifiedField)
    (variant : Variant) : Except GenerateError Layout :=
  layOut (· + ·) record variant fields

/-- What a machine with words of `bits` bits plans.  It differs only where the known sizes
do not fit the words, which takes fields wider than any declared type. -/
def planWrapping (bits : Nat) (record : String) (fields : List ClassifiedField)
    (variant : Variant) : Except GenerateError Layout :=
  layOut (wrappingAdd bits) record variant fields

end Layout

end PackedRecord
