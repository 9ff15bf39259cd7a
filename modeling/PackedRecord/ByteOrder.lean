/-!
# Byte orders, variants and operations

A packed record stores its multi-byte integers least significant byte first or
most significant byte first.  A *variant* is one decode/encode pair of a record:
the order it applies, and whether its operation names carry the order as a
suffix.  An *operation* is how a caller asks for a pair: the unsuffixed one, or
the one of a given order.
-/

namespace PackedRecord

inductive ByteOrder
  | little
  | big
  deriving DecidableEq, Repr

namespace ByteOrder

/-- The ending that operation names of this order carry. -/
def operationSuffix : ByteOrder → String
  | little => "_little_endian"
  | big => "_big_endian"

/-- The path by which rendered source refers to this order. -/
def sourcePath : ByteOrder → String
  | little => "ByteOrder::Little"
  | big => "ByteOrder::Big"

def label : ByteOrder → String
  | little => "little-endian"
  | big => "big-endian"

end ByteOrder

/-- One way to ask for a decode/encode pair. -/
inductive Operation
  | generic
  | ordered (order : ByteOrder)
  deriving DecidableEq, Repr

namespace Operation

def name (base : String) : Operation → String
  | generic => base
  | ordered order => base ++ order.operationSuffix

def label : Operation → String
  | generic => "generic"
  | ordered order => order.label

end Operation

/-- One decode/encode pair of a record. -/
structure Variant where
  order : ByteOrder
  suffixed : Bool
  deriving DecidableEq, Repr

namespace Variant

/-- The operation under which callers reach this variant. -/
def operation (variant : Variant) : Operation :=
  if variant.suffixed then .ordered variant.order else .generic

def operationName (variant : Variant) (base : String) : String :=
  variant.operation.name base

end Variant

end PackedRecord
