import PackedRecord.Arithmetic

/-!
# Sizes

Sizes, lengths and offsets are unsigned words, of as many bits as the machine's
addresses.  They are added without a check, so that a sum which does not fit comes out
modulo the count of words.
-/

namespace PackedRecord

/-- The sum of sizes, added one after another to the one at the start in words of `bits`
bits. -/
def wrappingSum (bits start : Nat) (sizes : List Nat) : Nat :=
  (sizes.foldl (fun total size => total + BitVec.ofNat bits size)
    (BitVec.ofNat bits start)).toNat

/-- The sum of two sizes in words of `bits` bits. -/
def wrappingAdd (bits size more : Nat) : Nat :=
  wrappingSum bits size [more]

variable {bits start : Nat} {sizes : List Nat}

@[simp]
theorem wrappingSum_nil : wrappingSum bits start [] = start % 2 ^ bits :=
  BitVec.toNat_ofNat start bits

theorem wrappingSum_cons (size : Nat) :
    wrappingSum bits start (size :: sizes) =
      wrappingSum bits (start + size) sizes := by
  rw [wrappingSum, wrappingSum, List.foldl_cons, BitVec.ofNat_add]

/-- Only the final sum has to be cut to the word. -/
theorem wrappingSum_eq_mod :
    wrappingSum bits start sizes = (start + sizes.sum) % 2 ^ bits := by
  induction sizes generalizing start with
  | nil => simp
  | cons size sizes inductionHypothesis =>
      rw [wrappingSum_cons, inductionHypothesis, List.sum_cons, Nat.add_assoc]

/-- A sum that fits is the sum of the numbers. -/
theorem wrappingSum_of_lt (fits : start + sizes.sum < 2 ^ bits) :
    wrappingSum bits start sizes = start + sizes.sum := by
  rw [wrappingSum_eq_mod, Nat.mod_eq_of_lt fits]

section Addition

variable {size more : Nat}

theorem wrappingAdd_eq_mod :
    wrappingAdd bits size more = (size + more) % 2 ^ bits := by
  rw [wrappingAdd, wrappingSum_eq_mod, List.sum_singleton]

theorem wrappingAdd_of_lt (fits : size + more < 2 ^ bits) :
    wrappingAdd bits size more = size + more := by
  rw [wrappingAdd_eq_mod, Nat.mod_eq_of_lt fits]

/-- Where an addition goes round, the sum is less than the size added to. -/
theorem wrappingAdd_lt_of_le
    (small : more < 2 ^ bits) (wraps : 2 ^ bits ≤ size + more) :
    wrappingAdd bits size more < size := by
  have atMost := Nat.mod_le (size + more - 2 ^ bits) (2 ^ bits)
  rw [wrappingAdd_eq_mod, Nat.mod_eq_sub_mod wraps]
  omega

end Addition

end PackedRecord
