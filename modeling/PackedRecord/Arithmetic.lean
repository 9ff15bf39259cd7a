/-!
# Powers and sums

Powers of numbers and sums of lists are those of the core library throughout, also
where an algebraic hierarchy is in scope that offers its own.
-/

namespace PackedRecord

attribute [scoped instance (high)] instPowNat Zero.ofOfNat0

-- A power of two numerals is elaborated by default instances alone.
attribute [default_instance (high + 1)] instPowNat

end PackedRecord
