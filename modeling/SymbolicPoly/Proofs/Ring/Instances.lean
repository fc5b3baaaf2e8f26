import Mathlib.Algebra.Ring.Int.Defs
import Mathlib.Algebra.Ring.Rat
import SymbolicPoly.Proofs.Ring.Commutative
import SymbolicPoly.Ring.Integers
import SymbolicPoly.Ring.Rationals

/-!
# Instances — rings whose operations are lawful

To see that operations are lawful it is enough to read them, without loss, in a commutative ring of
Mathlib (`Reads.lawful`). If that ring has no zero divisors, neither have the operations
(`Reads.isDomain`). Operations that agree with those of the type itself are read as they are
(`Agrees.lawful`). The integers and the rationals are compared here.
-/

namespace SymbolicPoly

universe u v

namespace CoeffRing

variable {R : Type u} {S : Type v} [CommRing S]

/-- `view` loses nothing and turns the operations of `K` into those of the ring `S`. -/
structure Reads (K : CoeffRing R) (view : R → S) : Prop where
  injective : Function.Injective view
  zero : view K.zero = 0
  one : view K.one = 1
  add : ∀ a b, view (K.add a b) = view a + view b
  neg : ∀ a, view (K.neg a) = -view a
  sub : ∀ a b, view (K.sub a b) = view a - view b
  mul : ∀ a b, view (K.mul a b) = view a * view b
  isZero_iff : ∀ a, K.isZero a = true ↔ view a = 0
  isOne_iff : ∀ a, K.isOne a = true ↔ view a = 1
  ofInt : ∀ n, view (K.ofInt n) = n
  pow : ∀ a n, view (K.pow a n) = view a ^ n

/-- Every law holds for the images. -/
theorem Reads.lawful {K : CoeffRing R} {view : R → S} (h : K.Reads view) : K.Lawful where
  add_assoc a b c := h.injective (by simp [h.add, add_assoc])
  add_comm a b := h.injective (by simp [h.add, add_comm])
  zero_add a := h.injective (by simp [h.add, h.zero])
  neg_add_cancel a := h.injective (by simp [h.add, h.neg, h.zero])
  mul_assoc a b c := h.injective (by simp [h.mul, mul_assoc])
  mul_comm a b := h.injective (by simp [h.mul, mul_comm])
  one_mul a := h.injective (by simp [h.mul, h.one])
  mul_add a b c := h.injective (by simp [h.mul, h.add, mul_add])
  sub_eq a b := h.injective (by simp [h.sub, h.add, h.neg, sub_eq_add_neg])
  isZero_iff a := (h.isZero_iff a).trans (h.zero ▸ h.injective.eq_iff)
  isOne_iff a := (h.isOne_iff a).trans (h.one ▸ h.injective.eq_iff)
  ofInt_eq n := by
    have hview : view (sumOfOnes K.zero K.one K.add K.neg n) = n • view K.one :=
      view_sumOfOnes view h.zero h.add h.neg n
    exact h.injective (by simp [hview, h.one, h.ofInt])
  pow_eq a n := by
    have hview := view_repeatOp view h.mul K.one a n
    exact h.injective (by simp [hview, h.one, h.pow])

theorem Reads.isDomain [Nontrivial S] [NoZeroDivisors S] {K : CoeffRing R} {view : R → S}
    (h : K.Reads view) : K.IsDomain where
  one_ne_zero hone := one_ne_zero (h.one.symm.trans ((congrArg view hone).trans h.zero))
  eq_zero_or_eq_zero a b hab := by
    have hproduct : view a * view b = 0 := (h.mul a b).symm.trans ((congrArg view hab).trans h.zero)
    simpa only [← h.zero, h.injective.eq_iff] using mul_eq_zero.1 hproduct

theorem Agrees.reads {R : Type u} [CommRing R] {K : CoeffRing R} [K.Agrees] :
    K.Reads fun a => a where
  injective := Function.injective_id
  zero := zero_eq
  one := one_eq
  add := add_eq
  neg := neg_eq
  sub := sub_eq
  mul := mul_eq
  isZero_iff := isZero_iff
  isOne_iff := isOne_iff
  ofInt := ofInt_eq
  pow := pow_eq

theorem Agrees.lawful {R : Type u} [CommRing R] {K : CoeffRing R} [K.Agrees] : K.Lawful :=
  Agrees.reads.lawful

end CoeffRing

/-! ## Integers and rationals -/

instance : integers.Agrees where
  zero_eq := rfl
  one_eq := rfl
  add_eq _ _ := rfl
  neg_eq _ := rfl
  sub_eq _ _ := rfl
  mul_eq _ _ := rfl
  isZero_iff a := beq_iff_eq (a := a) (b := 0)
  isOne_iff a := beq_iff_eq (a := a) (b := 1)
  ofInt_eq _ := rfl
  pow_eq a n := (ite_repeatOp ..).trans (repeatOp_one_eq_pow (fun _ _ => rfl) a n)

theorem lawful_integers : integers.Lawful :=
  CoeffRing.Agrees.lawful

theorem isDomain_integers : integers.IsDomain :=
  CoeffRing.Agrees.reads.isDomain

instance : rationals.toCoeffRing.Agrees where
  zero_eq := rfl
  one_eq := rfl
  add_eq _ _ := rfl
  neg_eq _ := rfl
  sub_eq _ _ := rfl
  mul_eq _ _ := rfl
  isZero_iff a := beq_iff_eq (a := a) (b := 0)
  isOne_iff a := beq_iff_eq (a := a) (b := 1)
  ofInt_eq _ := rfl
  pow_eq a n := (ite_repeatOp ..).trans (repeatOp_one_eq_pow (fun _ _ => rfl) a n)

theorem lawful_rationals : rationals.toCoeffRing.Lawful :=
  CoeffRing.Agrees.lawful

theorem isDomain_rationals : rationals.toCoeffRing.IsDomain :=
  CoeffRing.Agrees.reads.isDomain

end SymbolicPoly
