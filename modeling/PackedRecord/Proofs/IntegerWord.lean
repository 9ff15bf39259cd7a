import PackedRecord.Bytes.Word
import PackedRecord.IntegerType

/-!
# Integers in the low bits of a word

A loaded word holds the bytes of an integer in its low bits.  This module
computes the integer that such a word stands for, and shows that storing and
loading are inverse to each other: an integer in the range of its type survives
being cut down to the bytes of the type, and the bytes of a word survive being
read as an integer.
-/

namespace PackedRecord.IntegerType

/-! ## Words of integers -/

theorem toNat_ofInt (integer : Int) :
    ((UInt64.ofInt integer).toNat : Int) = integer % 2 ^ 64 := by
  have nonnegative : 0 ≤ integer % 2 ^ 64 := Int.emod_nonneg _ (by decide)
  have below : integer % 2 ^ 64 < 2 ^ 64 := Int.emod_lt_of_pos _ (by decide)
  rw [UInt64.ofInt, UInt64.toNat_ofNat_of_lt' (by
    show (integer % 2 ^ 64).toNat < 2 ^ 64
    omega)]
  exact Int.toNat_of_nonneg nonnegative

theorem ofInt_toNat (word : UInt64) : UInt64.ofInt (word.toNat : Int) = word := by
  apply UInt64.toNat_inj.mp
  have same := toNat_ofInt word.toNat
  have small := word.toNat_lt
  omega

/-- The word of an integer agrees with it in any number of low bits. -/
theorem toNat_ofInt_mod (integer : Int) {bits : Nat} (bound : bits ≤ 64) :
    (((UInt64.ofInt integer).toNat % 2 ^ bits : Nat) : Int) =
      integer % 2 ^ bits := by
  have divides : (2 : Int) ^ bits ∣ 2 ^ 64 := by
    obtain ⟨rest, split⟩ := Nat.exists_eq_add_of_le bound
    exact ⟨2 ^ rest, by rw [split, Int.pow_add]⟩
  push_cast
  rw [toNat_ofInt]
  exact Int.emod_emod_of_dvd integer divides

/-! ## Sign extension -/

private theorem toNat_smod_wordSize (shift : Nat) (small : shift < 64) :
    ((BitVec.ofNat 64 shift).smod 64#64).toNat = shift := by
  have value : (BitVec.ofNat 64 shift).toNat = shift := by
    rw [BitVec.toNat_ofNat]
    omega
  have nonnegative : (BitVec.ofNat 64 shift).msb = false := by
    rw [BitVec.msb_eq_decide, value]
    simp only [decide_eq_false_iff_not]
    omega
  rw [BitVec.smod_eq, nonnegative]
  show (BitVec.ofNat 64 shift % 64#64).toNat = shift
  rw [BitVec.toNat_umod, value]
  exact Nat.mod_eq_of_lt small

private theorem bmod_shifted
    (number : Int) (low high : Nat) (positive : 0 < high) :
    (number * 2 ^ low).bmod (2 ^ (high + low)) >>> low =
      number.bmod (2 ^ high) := by
  have even : 2 ∣ 2 ^ high :=
    ⟨2 ^ (high - 1), by rw [← Nat.pow_succ']; congr 1; omega⟩
  have scaled :
      (number * 2 ^ low).bmod (2 ^ (high + low)) =
        2 ^ low * number.bmod (2 ^ high) := by
    have factored :=
      Int.mod_bmod_mul_of_pos number (2 ^ high) (Nat.two_pow_pos low) even
    rw [Nat.add_comm, Nat.pow_add, Int.mul_comm]
    simpa using factored
  have nonzero : (2 : Int) ^ low ≠ 0 := Int.pow_ne_zero (by decide)
  rw [scaled, Int.shiftRight_eq_div_pow]
  push_cast
  exact Int.mul_ediv_cancel_left (number.bmod (2 ^ high)) nonzero

/-- The sign-extended low bits of a word are the word reduced to the residue
nearest to zero. -/
theorem toInt_signExtend
    (word : UInt64) {bits : Nat} (positive : 0 < bits) (bound : bits ≤ 64) :
    (signExtend word bits).toInt = (word.toNat : Int).bmod (2 ^ bits) := by
  obtain ⟨shift, small, split⟩ : ∃ shift, shift < 64 ∧ bits + shift = 64 :=
    ⟨64 - bits, by omega, by omega⟩
  have shiftValue : 64 - bits = shift := by omega
  have shiftedLeft :
      (word <<< UInt64.ofNat shift).toInt64.toBitVec =
        word.toBitVec <<< shift := by
    show (word <<< UInt64.ofNat shift).toBitVec = _
    rw [UInt64.toBitVec_shiftLeft]
    show word.toBitVec <<< (BitVec.ofNat 64 shift % 64#64) = _
    rw [BitVec.shiftLeft_eq', BitVec.toNat_umod, BitVec.toNat_ofNat]
    congr 1
    show shift % 2 ^ 64 % 64 = shift
    omega
  have shiftedRight :
      ((UInt64.ofNat shift).toInt64.toBitVec.smod 64).toNat = shift :=
    toNat_smod_wordSize shift small
  have reduced := bmod_shifted word.toNat shift bits positive
  rw [split] at reduced
  unfold signExtend
  rw [shiftValue, Int64.toInt]
  rw [Int64.toBitVec_shiftRight, BitVec.toInt_sshiftRight', shiftedRight,
    shiftedLeft, BitVec.toInt_shiftLeft, ← reduced]
  simp [Nat.shiftLeft_eq]

/-! ## Types that fit a word -/

/-- A type takes at least one byte and at most a whole word. -/
def Sized (type : IntegerType) : Prop :=
  0 < type.width ∧ type.width ≤ 8

theorem sized_of_ofPrimitive?
    {scalar : Primitive} {type : IntegerType}
    (found : ofPrimitive? scalar = some type) :
    type.Sized := by
  cases scalar <;> simp only [ofPrimitive?, Option.some.injEq, reduceCtorEq]
    at found <;> subst found <;> exact ⟨by decide, by decide⟩

private theorem Sized.bits_pos {type : IntegerType} (sized : type.Sized) :
    0 < type.bits := by
  have := sized.1
  unfold bits
  omega

theorem Sized.bits_le {type : IntegerType} (sized : type.Sized) :
    type.bits ≤ 64 := by
  have := sized.2
  unfold bits
  omega

private theorem Sized.twice_half {type : IntegerType} (sized : type.Sized) :
    2 * 2 ^ (type.bits - 1) = 2 ^ type.bits := by
  have := sized.bits_pos
  rw [← Nat.pow_succ']
  congr 1
  omega

theorem pow_width (type : IntegerType) : 256 ^ type.width = 2 ^ type.bits := by
  rw [bits, Nat.pow_mul]

/-! ## The integer of a word -/

/-- The integer whose two's complement in the bits of the type is given. -/
def denoted (type : IntegerType) (number : Nat) : Int :=
  if type.signed ∧ 2 ^ (type.bits - 1) ≤ number then
    number - 2 ^ type.bits
  else
    number

/-- An integer as the type's kind of value. -/
def valueOf (type : IntegerType) (integer : Int) : Value :=
  if type.signed then
    .signed (Int64.ofInt integer)
  else
    .unsigned (UInt64.ofInt integer)

theorem number_eq_bmod
    {type : IntegerType} (sized : type.Sized) (word : UInt64)
    (signed : type.signed = true) :
    type.number word = (word.toNat : Int).bmod (2 ^ type.bits) := by
  rw [number, if_pos signed]
  exact toInt_signExtend word sized.bits_pos sized.bits_le

theorem number_eq_toNat
    {type : IntegerType} (word : UInt64) (unsigned : type.signed = false) :
    type.number word = word.toNat := by
  simp [number, unsigned]

theorem number_eq_denoted
    {type : IntegerType} (sized : type.Sized) (word : UInt64)
    (small : word.toNat < 2 ^ type.bits) :
    type.number word = type.denoted word.toNat := by
  have halves := sized.twice_half
  unfold denoted
  cases sign : type.signed with
  | false => simpa using number_eq_toNat word sign
  | true =>
      rw [number_eq_bmod sized word sign, Int.bmod_def]
      have reduced : (word.toNat : Int) % (2 ^ type.bits : Nat) = word.toNat :=
        Int.emod_eq_of_lt (by omega) (by omega)
      rw [reduced]
      by_cases low : 2 ^ (type.bits - 1) ≤ word.toNat
      · rw [if_neg (by omega), if_pos ⟨rfl, low⟩]
        push_cast
        rfl
      · rw [if_pos (by omega), if_neg (fun both => low both.2)]

theorem load_eq_valueOf (type : IntegerType) (word : UInt64) :
    type.load word = type.valueOf (type.number word) := by
  unfold load valueOf number
  cases type.signed with
  | false =>
      simp only [Bool.false_eq_true, if_false, ofInt_toNat]
  | true => simp

/-- What a word of the type stands for lies in the range of the type. -/
theorem holds_number
    {type : IntegerType} (sized : type.Sized) (word : UInt64)
    (small : word.toNat < 2 ^ type.bits) :
    type.Holds (type.number word) := by
  have halves := sized.twice_half
  have halvesInt : 2 * (2 : Int) ^ (type.bits - 1) = 2 ^ type.bits := by
    exact_mod_cast halves
  have smallInt : (word.toNat : Int) < 2 ^ type.bits := by
    exact_mod_cast small
  rw [number_eq_denoted sized word small]
  unfold Holds least greatest denoted
  cases type.signed with
  | false =>
      simp only [Bool.false_eq_true, if_false, false_and]
      omega
  | true =>
      by_cases low : 2 ^ (type.bits - 1) ≤ word.toNat
      · have lowInt : (2 : Int) ^ (type.bits - 1) ≤ word.toNat := by
          exact_mod_cast low
        simp only [if_true, true_and, low]
        omega
      · have lowInt : ¬ (2 : Int) ^ (type.bits - 1) ≤ word.toNat := by
          exact_mod_cast low
        simp only [if_true, true_and, low, if_false]
        omega

/-! ## Storing and loading -/

theorem cast_two_pow (bits : Nat) : ((2 ^ bits : Nat) : Int) = 2 ^ bits := by
  push_cast
  rfl

/-- An integer in the range of its type is what its low bits stand for. -/
theorem number_of_low_bits
    {type : IntegerType} (sized : type.Sized) {integer : Int}
    (holds : type.Holds integer) {word : UInt64}
    (low : word.toNat = (UInt64.ofInt integer).toNat % 2 ^ type.bits) :
    type.number word = integer := by
  have halves : 2 * (2 : Int) ^ (type.bits - 1) = 2 ^ type.bits := by
    exact_mod_cast sized.twice_half
  have residue : (word.toNat : Int) = integer % 2 ^ type.bits := by
    rw [low]
    exact toNat_ofInt_mod integer sized.bits_le
  unfold Holds least greatest at holds
  cases sign : type.signed with
  | false =>
      simp only [sign, Bool.false_eq_true, if_false] at holds
      rw [number_eq_toNat word sign, residue]
      exact Int.emod_eq_of_lt (by omega) (by omega)
  | true =>
      simp only [sign, if_true] at holds
      rw [number_eq_bmod sized word sign, residue, ← cast_two_pow, Int.emod_bmod]
      apply Int.bmod_eq_of_le
      · rw [cast_two_pow]
        omega
      · rw [cast_two_pow]
        omega

/-- A stored word keeps its low bits when it is read as an integer. -/
private theorem low_bits_of_number
    {type : IntegerType} (sized : type.Sized) (word : UInt64)
    (small : word.toNat < 2 ^ type.bits) :
    (UInt64.ofInt (type.number word)).toNat % 2 ^ type.bits = word.toNat := by
  have residue :=
    toNat_ofInt_mod (type.number word) sized.bits_le
  have reduced : type.number word % 2 ^ type.bits = word.toNat := by
    have smallInt : (word.toNat : Int) < 2 ^ type.bits := by
      exact_mod_cast small
    rw [number_eq_denoted sized word small]
    unfold denoted
    split
    · rw [Int.sub_emod_right]
      exact Int.emod_eq_of_lt (by omega) smallInt
    · exact Int.emod_eq_of_lt (by omega) smallInt
  omega

section Stored

variable {type : IntegerType} (sized : type.Sized) (order : ByteOrder)
include sized

theorem toNat_word_numberOf
    {bytes : Bytes} (width : bytes.length = type.width) :
    (UInt64.ofNat (order.numberOf bytes)).toNat = order.numberOf bytes := by
  apply order.toNat_word_of_fits
  rw [width]
  exact sized.2

theorem word_numberOf_lt
    {bytes : Bytes} (width : bytes.length = type.width) :
    (UInt64.ofNat (order.numberOf bytes)).toNat < 2 ^ type.bits := by
  rw [toNat_word_numberOf sized order width, ← pow_width, ← width]
  exact order.numberOf_lt bytes

/-- What is stored of an integer in the range of its type is read as that
integer. -/
theorem number_bytesOf {integer : Int} (holds : type.Holds integer) :
    type.number
        (UInt64.ofNat
          (order.numberOf
            (order.bytesOf type.width (UInt64.ofInt integer).toNat))) =
      integer := by
  apply number_of_low_bits sized holds
  rw [toNat_word_numberOf sized order (order.length_bytesOf _ _),
    ByteOrder.numberOf_bytesOf, pow_width]

omit order in
/-- The value of an integer in the range of its type holds that integer. -/
theorem integer?_valueOf {integer : Int} (holds : type.Holds integer) :
    (type.valueOf integer).integer? = some integer := by
  have stored := number_bytesOf sized .little holds
  rw [← stored, ← load_eq_valueOf, integer?_load]

/-- Bytes that are read as an integer are what is stored of that integer. -/
theorem bytesOf_number {bytes : Bytes} (width : bytes.length = type.width) :
    order.bytesOf type.width
        (UInt64.ofInt
          (type.number (UInt64.ofNat (order.numberOf bytes)))).toNat =
      bytes := by
  have kept :=
    low_bits_of_number sized _ (word_numberOf_lt sized order width)
  rw [toNat_word_numberOf sized order width] at kept
  have lowBytes := order.numberOf_bytesOf type.width
    (UInt64.ofInt (type.number (UInt64.ofNat (order.numberOf bytes)))).toNat
  rw [pow_width, kept] at lowBytes
  have rebuilt := order.bytesOf_numberOf
    (order.bytesOf type.width
      (UInt64.ofInt
        (type.number (UInt64.ofNat (order.numberOf bytes)))).toNat)
  rw [lowBytes, ByteOrder.length_bytesOf, ← width,
    ByteOrder.bytesOf_numberOf] at rebuilt
  rw [← width]
  exact rebuilt.symm

end Stored

end PackedRecord.IntegerType
