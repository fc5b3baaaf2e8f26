import Mathlib.Algebra.BigOperators.Group.List.Basic
import Mathlib.Algebra.Group.Commute.Basic
import Mathlib.LinearAlgebra.Matrix.Notation
import SymbolicPoly.Proofs.Ring.Repetition

/-!
# Element powers — products of equal factors

Powers have a default in both forms of a ring, found by repeated squaring. It needs two of the ring
laws only: products are associative, and one is neutral on both sides (`MultiplicativeLaws`). Then the
default is the product of as many equal factors as the exponent says, and the rules for exponents
follow (`PowerLaws`).

Products need not commute. Where two elements do, the power of their product is the product of their
powers.
-/

namespace SymbolicPoly

universe u

variable {R : Type u} {mul : R → R → R} {one : R}

structure MultiplicativeLaws (mul : R → R → R) (one : R) : Prop where
  mul_assoc : ∀ a b c, mul (mul a b) c = mul a (mul b c)
  one_mul : ∀ a, mul one a = a
  mul_one : ∀ a, mul a one = a

/-- Powers are products of equal factors, from the left, and the rules for exponents hold. -/
structure PowerLaws (mul : R → R → R) (one : R) (pow : R → Nat → R) : Prop where
  pow_eq_product : ∀ a n, pow a n = (List.replicate n a).foldl mul one
  pow_add : ∀ a m n, pow a (m + n) = mul (pow a m) (pow a n)
  pow_pow : ∀ a m n, pow (pow a m) n = pow a (m * n)
  mul_pow : ∀ a b n, mul a b = mul b a → pow (mul a b) n = mul (pow a n) (pow b n)

namespace MultiplicativeLaws

/-- The monoid that the laws describe. -/
abbrev toMonoid (h : MultiplicativeLaws mul one) : Monoid R where
  mul := mul
  one := one
  mul_assoc := h.mul_assoc
  one_mul := h.one_mul
  mul_one := h.mul_one

theorem repeatOp_eq_pow (h : MultiplicativeLaws mul one) (a : R) (n : Nat) :
    letI := h.toMonoid
    repeatOp mul one a n = a ^ n :=
  let _ := h.toMonoid
  repeatOp_one_eq_pow (fun _ _ => rfl) a n

theorem product_replicate (h : MultiplicativeLaws mul one) (a : R) (n : Nat) :
    letI := h.toMonoid
    (List.replicate n a).foldl mul one = a ^ n := by
  let _ := h.toMonoid
  calc
    (List.replicate n a).foldl mul one = (List.replicate n a).prod := List.prod_eq_foldl.symm
    _ = a ^ n := List.prod_replicate n a

theorem powerLaws (h : MultiplicativeLaws mul one) : PowerLaws mul one (repeatOp mul one) := by
  let _ := h.toMonoid
  refine ⟨?_, ?_, ?_, ?_⟩
  · intro a n
    rw [h.repeatOp_eq_pow, h.product_replicate]
  · intro a m n
    simp only [h.repeatOp_eq_pow]
    exact pow_add a m n
  · intro a m n
    simp only [h.repeatOp_eq_pow]
    exact (pow_mul a m n).symm
  · intro a b n hcomm
    simp only [h.repeatOp_eq_pow]
    exact Commute.mul_pow hcomm n

end MultiplicativeLaws

/-- Both forms of a ring have the powers that the laws ask for, whatever the other operations are, if
they leave powers to the default. -/
theorem element_powers (h : MultiplicativeLaws mul one) (zero : R) (isZero isOne : R → Bool)
    (add sub : R → R → R) (neg : R → R) :
    let E : RingElement R := { zero, one, isZero, isOne, add, sub, neg, mul }
    let K : CoeffRing R := { zero, one, isZero, isOne, add, neg, sub, mul }
    PowerLaws mul one E.pow ∧ PowerLaws mul one K.pow := by
  intro E K
  -- The two loops differ only in how they begin.
  have hE : E.pow = repeatOp mul one := funext fun a => funext fun n => ite_repeatOp mul one a n
  exact ⟨hE ▸ h.powerLaws, h.powerLaws⟩

/-- The matrix whose powers list the numbers of Fibonacci, and its negative, with which it commutes. With
a shear it does not commute, and the square of their product is not the product of their squares. -/
theorem element_powers_fibonacci :
    let E : RingElement (Matrix (Fin 2) (Fin 2) Int) :=
      { zero := 0, one := 1, isZero := (· == 0), isOne := (· == 1), add := (· + ·), sub := (· - ·),
        neg := (- ·), mul := (· * ·) }
    let K : CoeffRing (Matrix (Fin 2) (Fin 2) Int) :=
      { zero := 0, one := 1, isZero := (· == 0), isOne := (· == 1), add := (· + ·), neg := (- ·),
        sub := (· - ·), mul := (· * ·) }
    let a : Matrix (Fin 2) (Fin 2) Int := !![1, 1; 1, 0]
    let b : Matrix (Fin 2) (Fin 2) Int := !![1, 1; 0, 1]
    MultiplicativeLaws K.mul K.one ∧
      (List.replicate 11 a).foldl K.mul K.one = !![144, 89; 89, 55] ∧
      E.pow a 11 = !![144, 89; 89, 55] ∧ K.pow a 11 = !![144, 89; 89, 55] ∧
      K.pow a (4 + 7) = K.mul (K.pow a 4) (K.pow a 7) ∧ K.pow (K.pow a 5) 3 = K.pow a 15 ∧
      K.mul a (-a) = K.mul (-a) a ∧
      K.pow (K.mul a (-a)) 6 = K.mul (K.pow a 6) (K.pow (-a) 6) ∧
      K.mul a b ≠ K.mul b a ∧ K.pow (K.mul a b) 2 ≠ K.mul (K.pow a 2) (K.pow b 2) := by
  intro E K a b
  have hlaws : MultiplicativeLaws K.mul K.one := ⟨mul_assoc, one_mul, mul_one⟩
  have hproduct : (List.replicate 11 a).foldl K.mul K.one = !![144, 89; 89, 55] := by decide +kernel
  have hcomm : K.mul a (-a) = K.mul (-a) a := by decide +kernel
  rcases element_powers hlaws 0 (· == 0) (· == 1) (· + ·) (· - ·) (- ·) with ⟨hE, hK⟩
  exact ⟨hlaws, hproduct, (hE.pow_eq_product a 11).trans hproduct,
    (hK.pow_eq_product a 11).trans hproduct, hK.pow_add a 4 7, hK.pow_pow a 5 3, hcomm,
    hK.mul_pow a (-a) 6 hcomm, by decide +kernel, by decide +kernel⟩

end SymbolicPoly
