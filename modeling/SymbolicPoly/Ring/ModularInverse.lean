/-!
# Modular inverse — the extended Euclidean algorithm

To invert `a` modulo `m` the algorithm runs Euclid's divisions on `m` and `a`, and keeps for each
remainder a cofactor: a number that times `a` is congruent to the remainder. When the remainders
reach the greatest common divisor and it is one, its cofactor is the inverse.
-/

namespace SymbolicPoly

/-- Two consecutive remainders, each with its cofactor. -/
structure EuclidState where
  cofactor : Int
  nextCofactor : Int
  remainder : Nat
  nextRemainder : Nat
  deriving DecidableEq, Repr

namespace EuclidState

/-- The remainders `m` and `a % m`, before the first division. -/
def start (a m : Nat) : EuclidState where
  cofactor := 0
  nextCofactor := 1
  remainder := m
  nextRemainder := a % m

def quotient (s : EuclidState) : Nat :=
  s.remainder / s.nextRemainder

/-- One division: the pair moves on to the next remainder and its cofactor. -/
def next (s : EuclidState) : EuclidState where
  cofactor := s.nextCofactor
  nextCofactor := s.cofactor - s.quotient * s.nextCofactor
  remainder := s.nextRemainder
  nextRemainder := s.remainder % s.nextRemainder

/-- Divides until the next remainder is zero. -/
def run (s : EuclidState) : EuclidState :=
  if _h : s.nextRemainder = 0 then s else s.next.run
termination_by s.nextRemainder
decreasing_by exact Nat.mod_lt _ (Nat.pos_of_ne_zero _h)

end EuclidState

/-- The number below `m` that times `a` is one modulo `m`, if `a` and `m` are coprime. Modulo one
that number is zero. -/
def modularInverse? (a m : Nat) : Option Nat :=
  let last := (EuclidState.start a m).run
  if last.remainder = 1 then some (last.cofactor % m).toNat else none

theorem modularInverse?_lt {a m b : Nat} (hm : 0 < m) (h : modularInverse? a m = some b) : b < m := by
  simp only [modularInverse?] at h
  split at h
  · cases h
    have hpos := Int.emod_nonneg (EuclidState.start a m).run.cofactor (b := m) (by omega)
    have hlt := Int.emod_lt_of_pos (EuclidState.start a m).run.cofactor (b := m) (by omega)
    omega
  · cases h

end SymbolicPoly
