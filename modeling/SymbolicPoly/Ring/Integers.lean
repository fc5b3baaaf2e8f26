import SymbolicPoly.Ring.Basic

/-!
# Integers — exact, of any size

The ring of integers. An integer is written in decimal with a leading `-` when it is negative.
-/

namespace SymbolicPoly

instance : RingElement Int where
  zero := 0
  one := 1
  isZero a := a == 0
  isOne a := a == 1
  add := Int.add
  sub := Int.sub
  neg := Int.neg
  mul := Int.mul
  ofInt n := n

/-- The ring of integers. -/
def integers : CoeffRing Int :=
  .ofElement Int

namespace Integers

def render (a : Int) : String :=
  if a < 0 then "-" ++ toString a.natAbs else toString a.natAbs

def debug (a : Int) : String :=
  "Z(" ++ render a ++ ")"

/-- The integer as a signed 64-bit word, if it fits. -/
def toInt64? (a : Int) : Option Int64 :=
  if Int64.minValue.toInt ≤ a ∧ a ≤ Int64.maxValue.toInt then some (Int64.ofInt a) else none

end Integers

end SymbolicPoly
