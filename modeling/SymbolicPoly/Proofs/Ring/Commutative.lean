import Mathlib.Algebra.Ring.MinimalAxioms
import Mathlib.Data.Int.Cast.Lemmas
import SymbolicPoly.Proofs.Ring.Repetition
import SymbolicPoly.Ring.Lawful

/-!
# Commutative rings — lawful operations as a Mathlib ring

The laws of a coefficient ring make its type a commutative ring (`Lawful.toCommRing`). In the other
direction, `CoeffRing.Agrees` says that the operations of `K` are those of a commutative ring that is
already there; its fields are simplification rules from the one notation to the other.

Theorems on polynomials are proved for operations that agree, and read for lawful ones through
`Lawful.agrees`.
-/

namespace SymbolicPoly

universe u

namespace CoeffRing

variable {R : Type u}

/-- The operations of `K` are those that `R` has as a commutative ring. -/
class Agrees [CommRing R] (K : CoeffRing R) : Prop where
  zero_eq : K.zero = 0
  one_eq : K.one = 1
  add_eq (a b : R) : K.add a b = a + b
  neg_eq (a : R) : K.neg a = -a
  sub_eq (a b : R) : K.sub a b = a - b
  mul_eq (a b : R) : K.mul a b = a * b
  isZero_iff (a : R) : K.isZero a = true ↔ a = 0
  isOne_iff (a : R) : K.isOne a = true ↔ a = 1
  ofInt_eq (n : Int) : K.ofInt n = n
  pow_eq (a : R) (n : Nat) : K.pow a n = a ^ n

attribute [simp] Agrees.zero_eq Agrees.one_eq Agrees.add_eq Agrees.neg_eq Agrees.sub_eq
  Agrees.mul_eq Agrees.isZero_iff Agrees.isOne_iff Agrees.ofInt_eq Agrees.pow_eq

@[simp]
theorem isZero_eq_false_iff [CommRing R] {K : CoeffRing R} [K.Agrees] (a : R) :
    K.isZero a = false ↔ a ≠ 0 := by
  rw [← Bool.not_eq_true, Agrees.isZero_iff]

/-- The sum of a list of elements, from the left. -/
def sum (K : CoeffRing R) (xs : List R) : R :=
  xs.foldl K.add K.zero

@[simp]
theorem sum_eq [CommRing R] {K : CoeffRing R} [K.Agrees] (xs : List R) : K.sum xs = xs.sum := by
  have hadd : K.add = (· + ·) := funext fun a => funext (Agrees.add_eq a)
  simp [sum, hadd, List.sum_eq_foldl]

/-- The product of a list of elements, from the left. -/
def product (K : CoeffRing R) (xs : List R) : R :=
  xs.foldl K.mul K.one

@[simp]
theorem product_eq [CommRing R] {K : CoeffRing R} [K.Agrees] (xs : List R) :
    K.product xs = xs.prod := by
  have hmul : K.mul = (· * ·) := funext fun a => funext (Agrees.mul_eq a)
  simp [product, hmul, List.prod_eq_foldl]

namespace Lawful

variable {K : CoeffRing R}

/-- The ring that the laws describe. -/
abbrev toCommRing (hK : K.Lawful) : CommRing R :=
  @CommRing.ofMinimalAxioms R ⟨K.add⟩ ⟨K.mul⟩ ⟨K.neg⟩ ⟨K.zero⟩ ⟨K.one⟩ hK.add_assoc hK.zero_add
    hK.neg_add_cancel hK.mul_assoc hK.mul_comm hK.one_mul hK.mul_add

theorem agrees (hK : K.Lawful) : letI := hK.toCommRing; K.Agrees :=
  letI := hK.toCommRing
  { zero_eq := rfl
    one_eq := rfl
    add_eq := fun _ _ => rfl
    neg_eq := fun _ => rfl
    sub_eq := fun a b => (hK.sub_eq a b).trans (sub_eq_add_neg a b).symm
    mul_eq := fun _ _ => rfl
    isZero_iff := hK.isZero_iff
    isOne_iff := hK.isOne_iff
    ofInt_eq := fun n => (hK.ofInt_eq n).trans ((sumOfOnes_eq_zsmul K.one n).trans (zsmul_one n))
    pow_eq := fun a n => (hK.pow_eq a n).trans (repeatOp_one_eq_pow (fun _ _ => rfl) a n) }

end Lawful

end CoeffRing

end SymbolicPoly
