import PackedRecord.Arithmetic
import PackedRecord.ByteOrder

/-!
# Words as bytes

A number is taken apart into a fixed count of bytes, and put together from them
again, in either byte order.  Taking apart keeps the number modulo a power of
`256`; putting together and taking apart returns the same bytes.
-/

namespace PackedRecord

/-- The content of a buffer, first byte first. -/
abbrev Bytes :=
  List UInt8

namespace Bytes

/-- The number whose bytes are given, least significant first. -/
def toNatLittle : Bytes → Nat
  | [] => 0
  | byte :: rest => byte.toNat + 256 * toNatLittle rest

/-- The low bytes of a number, least significant first. -/
def ofNatLittle : Nat → Nat → Bytes
  | 0, _ => []
  | width + 1, number => UInt8.ofNat number :: ofNatLittle width (number / 256)

@[simp]
theorem length_ofNatLittle (width number : Nat) :
    (ofNatLittle width number).length = width := by
  induction width generalizing number with
  | zero => rfl
  | succ width inductionHypothesis =>
      simp [ofNatLittle, inductionHypothesis]

theorem toNatLittle_lt (bytes : Bytes) :
    toNatLittle bytes < 256 ^ bytes.length := by
  induction bytes with
  | nil => simp [toNatLittle]
  | cons byte rest inductionHypothesis =>
      have byteBound : byte.toNat < 256 := byte.toNat_lt
      rw [toNatLittle, List.length_cons, Nat.pow_succ]
      omega

/-- Taking a number apart keeps it modulo a power of `256`. -/
theorem toNatLittle_ofNatLittle (width number : Nat) :
    toNatLittle (ofNatLittle width number) = number % 256 ^ width := by
  induction width generalizing number with
  | zero => simp [toNatLittle, ofNatLittle, Nat.mod_one]
  | succ width inductionHypothesis =>
      have byteValue : (UInt8.ofNat number).toNat = number % 256 :=
        UInt8.toNat_ofNat'
      rw [ofNatLittle, toNatLittle, inductionHypothesis, byteValue,
        Nat.pow_succ', ← Nat.mod_mul]

/-- Bytes put together and taken apart again are the same bytes. -/
theorem ofNatLittle_toNatLittle (bytes : Bytes) :
    ofNatLittle bytes.length (toNatLittle bytes) = bytes := by
  induction bytes with
  | nil => rfl
  | cons byte rest inductionHypothesis =>
      have byteBound : byte.toNat < 256 := byte.toNat_lt
      rw [List.length_cons, toNatLittle, ofNatLittle]
      congr 1
      · apply UInt8.toNat_inj.1
        rw [UInt8.toNat_ofNat']
        omega
      · rw [show (byte.toNat + 256 * toNatLittle rest) / 256 = toNatLittle rest by
          omega, inductionHypothesis]

end Bytes

namespace ByteOrder

/-- The number whose bytes are given in this order. -/
def numberOf (order : ByteOrder) (bytes : Bytes) : Nat :=
  match order with
  | little => bytes.toNatLittle
  | big => Bytes.toNatLittle bytes.reverse

def bytesOf (order : ByteOrder) (width number : Nat) : Bytes :=
  match order with
  | little => Bytes.ofNatLittle width number
  | big => (Bytes.ofNatLittle width number).reverse

@[simp]
theorem length_bytesOf (order : ByteOrder) (width number : Nat) :
    (order.bytesOf width number).length = width := by
  cases order <;> simp [bytesOf]

theorem numberOf_lt (order : ByteOrder) (bytes : Bytes) :
    order.numberOf bytes < 256 ^ bytes.length := by
  cases order with
  | little => exact bytes.toNatLittle_lt
  | big => simpa [numberOf] using Bytes.toNatLittle_lt bytes.reverse

/-- A word holds the number of up to eight bytes. -/
theorem toNat_word_of_fits
    (order : ByteOrder) {bytes : Bytes} (fits : bytes.length ≤ 8) :
    (UInt64.ofNat (order.numberOf bytes)).toNat = order.numberOf bytes := by
  have below : order.numberOf bytes < 256 ^ bytes.length :=
    order.numberOf_lt bytes
  have bound : 256 ^ bytes.length ≤ 256 ^ 8 :=
    Nat.pow_le_pow_right (by decide) fits
  apply UInt64.toNat_ofNat_of_lt'
  exact Nat.lt_of_lt_of_le below bound

/-- Storing a number in some bytes keeps it modulo a power of `256`. -/
@[simp]
theorem numberOf_bytesOf (order : ByteOrder) (width number : Nat) :
    order.numberOf (order.bytesOf width number) = number % 256 ^ width := by
  cases order <;> simp [numberOf, bytesOf, Bytes.toNatLittle_ofNatLittle]

/-- The bytes of the number that some bytes denote are those bytes. -/
theorem bytesOf_numberOf (order : ByteOrder) (bytes : Bytes) :
    order.bytesOf bytes.length (order.numberOf bytes) = bytes := by
  cases order with
  | little => exact bytes.ofNatLittle_toNatLittle
  | big =>
      have reversed := Bytes.ofNatLittle_toNatLittle bytes.reverse
      rw [List.length_reverse] at reversed
      simp [numberOf, bytesOf, reversed]

end ByteOrder

end PackedRecord
