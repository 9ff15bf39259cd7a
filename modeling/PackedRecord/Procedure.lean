import PackedRecord.Layout

/-!
# Procedures

A layout becomes a decode and an encode procedure: a flat list of statements that
can be run or written out as source.  Both directions touch the same placed
fields in the same order and demand the same sizes: all bytes known beforehand at
the start, and after each composite all bytes known by then.
-/

namespace PackedRecord

structure Naming where
  decode : String := "decode"
  encode : String := "encode"
  deriving DecidableEq, Repr

/-- Which way a procedure runs. -/
inductive Direction
  | decode
  | encode
  deriving DecidableEq, Repr

inductive Statement
  | require (size : Offset)
  /-- Decode a field into a local; a composite also binds its length. -/
  | read (field : PlacedField)
  /-- Encode a field; a composite also binds its length. -/
  | write (field : PlacedField)
  | construct (fields : List String)
  deriving DecidableEq, Repr

structure Procedure where
  name : String
  direction : Direction
  body : List Statement
  returns : Offset
  deriving DecidableEq, Repr

/-- The procedures of one record for one variant. -/
structure CodecPair where
  record : String
  variant : Variant
  staticSize : Nat
  decode : Procedure
  encode : Procedure
  deriving DecidableEq, Repr

def CodecPair.procedure (pair : CodecPair) : Direction → Procedure
  | .decode => pair.decode
  | .encode => pair.encode

namespace Direction

def touch (direction : Direction) (field : PlacedField) : Statement :=
  match direction with
  | decode => .read field
  | encode => .write field

def baseName (direction : Direction) (naming : Naming) : String :=
  match direction with
  | decode => naming.decode
  | encode => naming.encode

/-- What a procedure does after the last field. -/
def closing (direction : Direction) (fields : List PlacedField) :
    List Statement :=
  match direction with
  | decode => [.construct (fields.map PlacedField.name)]
  | encode => []

/-- The statements that touch some fields, when the given size has been demanded
before.  Each composite is followed by a demand that includes its length. -/
def touchAll (direction : Direction) (demanded : Offset) :
    List PlacedField → List Statement
  | [] => []
  | field :: rest =>
      match field.access.length? with
      | none => direction.touch field :: direction.touchAll demanded rest
      | some length =>
          direction.touch field ::
            .require (demanded.plus length) ::
              direction.touchAll (demanded.plus length) rest

end Direction

namespace Layout

def procedure (layout : Layout) (naming : Naming) (direction : Direction) :
    Procedure :=
  let demanded := Offset.constant layout.staticSize
  { name := layout.variant.operationName (direction.baseName naming)
    direction
    body :=
      .require demanded ::
        (direction.touchAll demanded layout.fields ++
          direction.closing layout.fields)
    returns := layout.total }

def emit (layout : Layout) (naming : Naming) : CodecPair :=
  { record := layout.record
    variant := layout.variant
    staticSize := layout.staticSize
    decode := layout.procedure naming .decode
    encode := layout.procedure naming .encode }

theorem procedure_emit
    (layout : Layout) (naming : Naming) (direction : Direction) :
    (layout.emit naming).procedure direction =
      layout.procedure naming direction := by
  cases direction <;> rfl

end Layout

end PackedRecord
