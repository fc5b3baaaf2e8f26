import SymbolicPoly.Ring.Basic

/-!
# Lawful rings — the laws that arithmetic relies on

A coefficient ring is lawful when its operations satisfy the laws of a commutative ring with one,
its tests decide equality with zero and one, and differences, images of integers and powers are
what the general definitions give. Zero divisors are allowed, and so is the ring in which one
equals zero.
-/

namespace SymbolicPoly

universe u

namespace CoeffRing

variable {R : Type u}

structure Lawful (K : CoeffRing R) : Prop where
  add_assoc : ∀ a b c, K.add (K.add a b) c = K.add a (K.add b c)
  add_comm : ∀ a b, K.add a b = K.add b a
  zero_add : ∀ a, K.add K.zero a = a
  neg_add_cancel : ∀ a, K.add (K.neg a) a = K.zero
  mul_assoc : ∀ a b c, K.mul (K.mul a b) c = K.mul a (K.mul b c)
  mul_comm : ∀ a b, K.mul a b = K.mul b a
  one_mul : ∀ a, K.mul K.one a = a
  mul_add : ∀ a b c, K.mul a (K.add b c) = K.add (K.mul a b) (K.mul a c)
  sub_eq : ∀ a b, K.sub a b = K.add a (K.neg b)
  isZero_iff : ∀ a, K.isZero a = true ↔ a = K.zero
  isOne_iff : ∀ a, K.isOne a = true ↔ a = K.one
  ofInt_eq : ∀ n, K.ofInt n = sumOfOnes K.zero K.one K.add K.neg n
  pow_eq : ∀ a n, K.pow a n = repeatOp K.mul K.one a n

/-- A product is zero only if a factor is, and one is not zero. -/
structure IsDomain (K : CoeffRing R) : Prop where
  one_ne_zero : K.one ≠ K.zero
  eq_zero_or_eq_zero : ∀ a b, K.mul a b = K.zero → a = K.zero ∨ b = K.zero

end CoeffRing

end SymbolicPoly
