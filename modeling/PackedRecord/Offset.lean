import PackedRecord.Size
import PackedRecord.Text.Numeral

/-!
# Offsets

The place of a field is a count of bytes known beforehand plus the lengths that
the composites before it report at run time.  An offset is such a sum; it has a
value once a table of reported lengths is given.

A machine adds the lengths in its words, where the sum may wrap around.  Runs of codecs
never come to that, so they are described by the sum of the numbers.
-/

namespace PackedRecord

open Text

/-- The length reported by one composite of a record: that of the composite at
this place among the record's composites, counted from zero. -/
structure LengthVar where
  /-- The place of the composite, and of its length in a table. -/
  index : Nat
  deriving DecidableEq, Repr

namespace LengthVar

/-- The number by which the length is named, counted from one. -/
def number (length : LengthVar) : Nat :=
  length.index + 1

def name (length : LengthVar) : String :=
  "len_" ++ decimal length.number

/-- The length that a table reports; one that is not reported counts as zero. -/
def value (length : LengthVar) (reported : List Nat) : Nat :=
  reported.getD length.index 0

end LengthVar

/-- A sum of a constant and of reported lengths. -/
structure Offset where
  /-- The bytes known beforehand. -/
  base : Nat := 0
  /-- The reported lengths, in the order in which they are added. -/
  lengths : List LengthVar := []
  deriving DecidableEq, Repr

namespace Offset

def constant (base : Nat) : Offset :=
  { base }

def isStatic (offset : Offset) : Bool :=
  offset.lengths.isEmpty

def plus (offset : Offset) (length : LengthVar) : Offset :=
  { offset with lengths := offset.lengths ++ [length] }

/-- The lengths that the offset adds, as a table reports them. -/
def reportedLengths (offset : Offset) (reported : List Nat) : List Nat :=
  offset.lengths.map fun length => length.value reported

def sum (offset : Offset) (reported : List Nat) : Nat :=
  offset.base + (offset.reportedLengths reported).sum

/-- The value of the offset under a table of reported lengths, on a machine with words of
`bits` bits. -/
def eval (offset : Offset) (reported : List Nat) (bits : Nat := 64) : Nat :=
  wrappingSum bits offset.base (offset.reportedLengths reported)

/-- The offset as a sum of its base and its lengths. -/
def text (offset : Offset) : String :=
  " + ".intercalate
    (decimal offset.base :: offset.lengths.map LengthVar.name)

/-- The offset as rendered source writes it: a zero base is left out, unless
nothing else remains. -/
def sourceText (offset : Offset) : String :=
  if offset.base = 0 ∧ offset.lengths ≠ [] then
    " + ".intercalate (offset.lengths.map LengthVar.name)
  else
    offset.text

@[simp]
theorem sum_constant (base : Nat) (reported : List Nat) :
    (constant base).sum reported = base :=
  rfl

@[simp]
theorem sum_plus
    (offset : Offset) (length : LengthVar) (reported : List Nat) :
    (offset.plus length).sum reported =
      offset.sum reported + length.value reported := by
  simp [sum, reportedLengths, plus, Nat.add_assoc]

section Wrapping

variable (offset : Offset) (reported : List Nat) (bits : Nat)

theorem eval_eq_mod :
    offset.eval reported bits = offset.sum reported % 2 ^ bits :=
  wrappingSum_eq_mod

/-- A machine finds the sum where the sum fits its words. -/
theorem eval_of_lt (fits : offset.sum reported < 2 ^ bits) :
    offset.eval reported bits = offset.sum reported :=
  wrappingSum_of_lt fits

-- The greatest length takes the sum past the last word.
example :
    ({ base := 1, lengths := [{ index := 0 }] } : Offset).eval [2 ^ 64 - 1] = 0 := by
  decide

end Wrapping

end Offset

end PackedRecord
