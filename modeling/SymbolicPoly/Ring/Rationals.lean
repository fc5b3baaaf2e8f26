import SymbolicPoly.Error
import SymbolicPoly.Ring.Integers

/-!
# Rationals — fractions in lowest terms

The field of rational numbers. A value is always in lowest terms and its denominator is positive,
so numbers are equal exactly when their numerators and denominators are.

A rational is written `a/b`, and `a` alone when `b` is one.
-/

namespace SymbolicPoly

instance : FieldElement Rat where
  zero := 0
  one := 1
  isZero a := a == 0
  isOne a := a == 1
  add := Rat.add
  sub := Rat.sub
  neg := Rat.neg
  mul := Rat.mul
  ofInt n := Rat.ofInt n
  inv? a := if a = 0 then none else some a.inv

/-- The field of rational numbers. -/
def rationals : CoeffField Rat :=
  .ofElement Rat

namespace Rationals

/-- The fraction `num / den`, of integers of any signs. -/
def ofFraction (num den : Int) : Except ZeroDenominator Rat :=
  if den = 0 then .error ⟨⟩ else .ok (Rat.divInt num den)

def render (a : Rat) : String :=
  if a.den = 1 then Integers.render a.num else Integers.render a.num ++ "/" ++ toString a.den

/-- The denominator is shown even when it is one. -/
def debug (a : Rat) : String :=
  "Q(" ++ Integers.render a.num ++ " / " ++ toString a.den ++ ")"

/-- The order of the rational line. -/
def compare (a b : Rat) : Ordering :=
  compareOfLessAndEq a b

end Rationals

end SymbolicPoly
