import PackedRecord.Proofs.StoredInteger

/-!
# Signs of truncated integers

An integer is stored as the low bits of a word, whatever its sign, and the sign is found
again in the highest of these bits.  This module says which integer it is that low bits
are extended to, and shows that the integers which are accepted for storing are those
that are found again.
-/

namespace PackedRecord.IntegerType

/-! ## Residues with a sign -/

/-- An integer that is congruent to a word, modulo a power of two, and lies in the range
that so many bits with a sign have. -/
structure SignedResidue (word : UInt64) (bits : Nat) (integer : Int) : Prop where
  least : -2 ^ (bits - 1) ≤ integer
  below : integer < 2 ^ (bits - 1)
  congruent : integer % 2 ^ bits = word.toNat % 2 ^ bits

section SignedResidue

variable {word other : UInt64} {bits : Nat} {integer another : Int}

private theorem twice_half_of_bits (positive : 0 < bits) :
    2 * (2 : Int) ^ (bits - 1) = 2 ^ bits := by
  rw [← Int.pow_succ']
  congr 1
  omega

private theorem SignedResidue.of_low_bits
    (residue : SignedResidue word bits integer)
    (same : other.toNat % 2 ^ bits = word.toNat % 2 ^ bits) :
    SignedResidue other bits integer := by
  refine ⟨residue.least, residue.below, ?_⟩
  rw [residue.congruent]
  exact_mod_cast same.symm

/-- The range is as long as the modulus, so the residue is the one nearest to zero. -/
private theorem SignedResidue.eq_bmod
    (residue : SignedResidue word bits integer) (positive : 0 < bits) :
    integer = (word.toNat : Int).bmod (2 ^ bits) := by
  have halves := twice_half_of_bits positive
  have nearest : integer.bmod (2 ^ bits) = integer := by
    apply Int.bmod_eq_of_le
    · have least := residue.least
      rw [cast_two_pow]
      omega
    · have below := residue.below
      rw [cast_two_pow]
      omega
  rw [← nearest, ← Int.emod_bmod, cast_two_pow, residue.congruent,
    ← cast_two_pow, Int.emod_bmod]

theorem SignedResidue.unique
    (residue : SignedResidue word bits integer)
    (otherResidue : SignedResidue word bits another) (positive : 0 < bits) :
    integer = another := by
  rw [residue.eq_bmod positive, otherResidue.eq_bmod positive]

theorem signedResidue_signExtend
    (word : UInt64) (positive : 0 < bits) (bound : bits ≤ 64) :
    SignedResidue word bits (signExtend word bits).toInt := by
  have halves := twice_half_of_bits positive
  have modulus : 0 < 2 ^ bits := Nat.two_pow_pos bits
  rw [toInt_signExtend word positive bound]
  constructor
  · have least := Int.le_bmod (x := word.toNat) modulus
    rw [cast_two_pow] at least
    omega
  · have below := Int.bmod_lt (x := word.toNat) modulus
    rw [cast_two_pow] at below
    omega
  · rw [← cast_two_pow, Int.bmod_emod]

/-- Bits above those that are extended do not matter. -/
private theorem signExtend_of_low_bits
    (same : other.toNat % 2 ^ bits = word.toNat % 2 ^ bits)
    (positive : 0 < bits) (bound : bits ≤ 64) :
    signExtend other bits = signExtend word bits := by
  have residue := signedResidue_signExtend word positive bound
  have otherResidue := signedResidue_signExtend other positive bound
  apply Int64.toInt_inj.mp
  exact otherResidue.unique (residue.of_low_bits same) positive

end SignedResidue

/-! ## Accepted integers -/

section Accepted

variable {type : IntegerType} {field : String} {integer : Int}
  {word low : UInt64}

theorem exists_checkedWord_iff :
    (∃ word, RecordCodec.checkedWord field type integer = .ok word) ↔
      type.Holds integer := by
  simp only [RecordCodec.checkedWord_eq_ok]
  constructor
  · intro accepted
    obtain ⟨word, holds, stored⟩ := accepted
    exact holds
  · intro holds
    exact ⟨UInt64.ofInt integer, holds, rfl⟩

/-- What is loaded from the low bits of an accepted integer's word is that integer. -/
private theorem load_of_checkedWord
    (sized : type.Sized)
    (accepted : RecordCodec.checkedWord field type integer = .ok word)
    (truncated : low.toNat = word.toNat % 2 ^ (8 * type.width)) :
    type.load low = type.valueOf integer ∧
      (type.load low).integer? = some integer := by
  obtain ⟨holds, stored⟩ := RecordCodec.checkedWord_eq_ok.mp accepted
  rw [← stored] at truncated
  have found : type.number low = integer :=
    number_of_low_bits sized holds truncated
  rw [integer?_load, load_eq_valueOf, found]
  exact ⟨rfl, rfl⟩

end Accepted

/-- Extending the sign of some low bits gives the one integer in their range that is
congruent to the word, and the bits above do not matter.  Of the integers, a type of one
to eight bytes accepts those in its range, and each is loaded again from the low bits of
the word that it is stored as. -/
theorem integers_survive_truncation :
    (∀ (word : UInt64) (bits : Nat),
      0 < bits →
        bits ≤ 64 →
          -2 ^ (bits - 1) ≤ (signExtend word bits).toInt ∧
            (signExtend word bits).toInt < 2 ^ (bits - 1) ∧
              (signExtend word bits).toInt % 2 ^ bits =
                  word.toNat % 2 ^ bits ∧
                ∀ other : UInt64,
                  other.toNat % 2 ^ bits = word.toNat % 2 ^ bits →
                    signExtend other bits = signExtend word bits) ∧
      ∀ type : IntegerType,
        0 < type.width →
          type.width ≤ 8 →
            ∀ (field : String) (integer : Int),
              ((∃ word,
                  RecordCodec.checkedWord field type integer = .ok word) ↔
                type.least ≤ integer ∧ integer ≤ type.greatest) ∧
                ∀ word low : UInt64,
                  RecordCodec.checkedWord field type integer = .ok word →
                    low.toNat = word.toNat % 2 ^ (8 * type.width) →
                      type.load low = type.valueOf integer ∧
                        (type.load low).integer? = some integer := by
  constructor
  · intro word bits positive bound
    have residue := signedResidue_signExtend word positive bound
    refine ⟨residue.least, residue.below, residue.congruent, ?_⟩
    intro other same
    exact signExtend_of_low_bits same positive bound
  · intro type positive bound field integer
    refine ⟨exists_checkedWord_iff, ?_⟩
    intro word low accepted truncated
    exact load_of_checkedWord ⟨positive, bound⟩ accepted truncated

/-- The least integer of eight bytes fills a word up to its highest bit, and the greatest
all but that; of a negative integer in two bytes, the word has ones above them. -/
theorem integers_survive_truncation_at_the_ends :
    signExtend 0xFE80 8 = signExtend 0x80 8 ∧
      (IntegerType.load { width := 8, signed := true } 0x8000000000000000
          ).integer? = some (-2 ^ 63) ∧
        (IntegerType.load { width := 2, signed := true } 0xFFFE).integer? =
            some (-2) ∧
          ¬ ∃ word,
            RecordCodec.checkedWord "depth" { width := 2, signed := true }
              (2 ^ 15) = .ok word := by
  obtain ⟨extended, accepted⟩ := integers_survive_truncation
  obtain ⟨_, _, _, lowBits⟩ := extended 0x80 8 (by decide) (by decide)
  have widest :=
    accepted { width := 8, signed := true } (by decide) (by decide) "depth"
      (-2 ^ 63)
  have narrow :=
    accepted { width := 2, signed := true } (by decide) (by decide) "depth"
  refine ⟨lowBits 0xFE80 (by decide), ?_, ?_, ?_⟩
  · exact (widest.2 0x8000000000000000 _ (by decide) (by decide)).2
  · exact ((narrow (-2)).2 0xFFFFFFFFFFFFFFFE _ (by decide) (by decide)).2
  · rw [(narrow (2 ^ 15)).1]
    decide

end PackedRecord.IntegerType
