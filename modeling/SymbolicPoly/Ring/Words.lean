import SymbolicPoly.Ring.Basic

/-!
# Words — wrapping machine words as coefficients

Bit vectors of a fixed width, with sums, negatives and products that wrap. This is the ring of
integers modulo a power of two in the two's complement reading or the unsigned one, whichever the
user of the words prefers.

Both forms of the ring are given by the required operations alone. Images of integers and powers
are the general ones, computed by doubling and squaring.
-/

namespace SymbolicPoly

instance {w : Nat} : RingElement (BitVec w) where
  zero := 0
  one := 1
  isZero a := a == 0
  isOne a := a == 1
  add := BitVec.add
  sub := BitVec.sub
  neg := BitVec.neg
  mul := BitVec.mul

/-- The ring of words of width `w`. -/
def words (w : Nat) : CoeffRing (BitVec w) :=
  .ofOperations 0 1 BitVec.add BitVec.neg BitVec.mul

end SymbolicPoly
