import Mathlib.Algebra.Field.ZMod
import Mathlib.Data.ZMod.Basic
import SymbolicPoly.Proofs.Ring.Instances
import SymbolicPoly.Ring.FiniteField
import SymbolicPoly.Ring.Residue

/-!
# Modular rings — residues read in the ring of integers modulo a number

Both kinds of residues compute with a natural number below the modulus: in `FiniteField` it is
stored as such, in `Residue` as a machine word. `CoeffRing.Modular` says what the operations do to
that number. The residues can then be read in `ZMod`, so the operations are lawful
(`lawful_finiteField`, `lawful_integersMod`), also modulo one and modulo numbers that are not prime.
-/

namespace SymbolicPoly

universe u

namespace CoeffRing

variable {R : Type u}

/-- The elements are numbers below `m`, and the operations are those of numbers, reduced. -/
structure Modular (K : CoeffRing R) (m : Nat) (value : R → Nat) : Prop where
  injective : Function.Injective value
  value_lt : ∀ a, value a < m
  value_zero : value K.zero = 0
  value_one : value K.one = 1 % m
  value_add : ∀ a b, value (K.add a b) = (value a + value b) % m
  value_neg : ∀ a, value (K.neg a) = if value a = 0 then 0 else m - value a
  value_mul : ∀ a b, value (K.mul a b) = value a * value b % m
  value_ofInt : ∀ n, value (K.ofInt n) = (n % m).toNat
  sub_eq : ∀ a b, K.sub a b = K.add a (K.neg b)
  isZero_iff : ∀ a, K.isZero a = true ↔ value a = 0
  isOne_iff : ∀ a, K.isOne a = true ↔ value a = 1 % m
  pow_eq : ∀ a n, K.pow a n = repeatOp K.mul K.one a n

namespace Modular

variable {K : CoeffRing R} {m : Nat} {value : R → Nat}

theorem cast_eq_iff (h : K.Modular m value) (a : R) (n : Nat) :
    (value a : ZMod m) = n ↔ value a = n % m := by
  rw [ZMod.natCast_eq_natCast_iff', Nat.mod_eq_of_lt (h.value_lt a)]

theorem cast_neg (h : K.Modular m value) (a : R) :
    (value (K.neg a) : ZMod m) = -(value a : ZMod m) := by
  rw [h.value_neg]
  split_ifs with hzero
  · simp [hzero]
  · simp [Nat.cast_sub (h.value_lt a).le]

theorem cast_ofInt (h : K.Modular m value) (n : Int) : (value (K.ofInt n) : ZMod m) = n := by
  -- The modulus is positive, since there is a number below it.
  have hpos : (m : Int) ≠ 0 := by
    have hlt := h.value_lt (K.ofInt n)
    omega
  have htoNat : ((n % m).toNat : Int) = n % m := Int.toNat_of_nonneg (Int.emod_nonneg n hpos)
  calc
    (value (K.ofInt n) : ZMod m) = (((n % m).toNat : Int) : ZMod m) := by
          rw [h.value_ofInt, Int.cast_natCast]
    _ = n := by rw [htoNat, ZMod.intCast_mod]

theorem cast_mul (h : K.Modular m value) (a b : R) :
    (value (K.mul a b) : ZMod m) = value a * value b := by
  simp [h.value_mul]

theorem reads (h : K.Modular m value) : K.Reads fun a => (value a : ZMod m) where
  injective := by
    -- Numbers below the modulus are equal as soon as they are congruent.
    intro a b hab
    refine h.injective (((h.cast_eq_iff a (value b)).1 hab).trans ?_)
    exact Nat.mod_eq_of_lt (h.value_lt b)
  zero := by simp [h.value_zero]
  one := by simp [h.value_one]
  add a b := by simp [h.value_add]
  neg := h.cast_neg
  sub a b := by simp [h.sub_eq, h.value_add, h.cast_neg, sub_eq_add_neg]
  mul := h.cast_mul
  isZero_iff a := by simpa [h.isZero_iff] using (h.cast_eq_iff a 0).symm
  isOne_iff a := by simpa [h.isOne_iff] using (h.cast_eq_iff a 1).symm
  ofInt := h.cast_ofInt
  pow a n := by
    have hview := view_repeatOp (fun a => (value a : ZMod m)) h.cast_mul K.one a n
    simpa [h.pow_eq, h.value_one] using hview

end Modular

end CoeffRing

/-! ## Residues modulo a number in the type -/

theorem modular_finiteField (p : Nat) [NonzeroModulus p] :
    (finiteField p).toCoeffRing.Modular p FiniteField.value where
  injective := by
    rintro ⟨a, ha⟩ ⟨b, hb⟩ h
    cases h
    rfl
  value_lt := FiniteField.isLt
  value_zero := rfl
  value_one := rfl
  value_add _ _ := rfl
  value_neg _ := rfl
  value_mul _ _ := rfl
  value_ofInt _ := rfl
  sub_eq _ _ := rfl
  isZero_iff a := beq_iff_eq (a := a.value) (b := 0)
  isOne_iff a := beq_iff_eq (a := a.value) (b := 1 % p)
  pow_eq _ _ := ite_repeatOp ..

theorem lawful_finiteField (p : Nat) [NonzeroModulus p] : (finiteField p).toCoeffRing.Lawful :=
  (modular_finiteField p).reads.lawful

theorem isDomain_finiteField {p : Nat} [NonzeroModulus p] (hp : p.Prime) :
    (finiteField p).toCoeffRing.IsDomain :=
  have _ : Fact p.Prime := ⟨hp⟩
  (modular_finiteField p).reads.isDomain

/-! ## Residues modulo a machine word -/

namespace Residue

variable {m : Modulus}

theorem toNat_reduce (n : Nat) : (reduce m n).value.toNat = n % m.word.toNat := by
  simp [reduce]

theorem toNat_injective : Function.Injective fun a : Residue m => a.value.toNat := by
  rintro ⟨a, ha⟩ ⟨b, hb⟩ h
  cases UInt64.toNat_inj.1 h
  rfl

theorem toNat_neg (a : Residue m) :
    a.neg.value.toNat = if a.value.toNat = 0 then 0 else m.word.toNat - a.value.toNat := by
  have hzero : a.value = 0 ↔ a.value.toNat = 0 := UInt64.toNat_inj.symm
  -- Words subtract without wrapping here, because the residue is below the modulus.
  by_cases h : a.value = 0
  · simp [neg, h]
  · simp [neg, h, hzero.not.1 h, toNat_modulus_sub]

theorem toNat_ofInt (n : Int) : (ofInt m n).value.toNat = (n % m.word.toNat).toNat := by
  have hpos : (0 : Int) < m.word.toNat := Int.natCast_pos.2 m.pos
  have hlt := Int.emod_lt_of_pos n hpos
  rw [ofInt, toNat_reduce]
  exact Nat.mod_eq_of_lt (by omega)

end Residue

theorem modular_integersMod (m : Modulus) :
    (integersMod m).toCoeffRing.Modular m.word.toNat fun a => a.value.toNat where
  injective := Residue.toNat_injective
  value_lt := Residue.isLt
  value_zero := rfl
  value_one := Residue.toNat_reduce 1
  value_add _ _ := Residue.toNat_reduce _
  value_neg := Residue.toNat_neg
  value_mul _ _ := Residue.toNat_reduce _
  value_ofInt := Residue.toNat_ofInt
  sub_eq _ _ := rfl
  isZero_iff a := (beq_iff_eq (a := a.value) (b := 0)).trans UInt64.toNat_inj.symm
  isOne_iff a := by
    refine (beq_iff_eq (a := a) (b := Residue.ofWord m 1)).trans ?_
    exact Residue.toNat_injective.eq_iff.symm.trans (Residue.toNat_reduce 1 ▸ Iff.rfl)
  pow_eq _ _ := rfl

theorem lawful_integersMod (m : Modulus) : (integersMod m).toCoeffRing.Lawful :=
  (modular_integersMod m).reads.lawful

end SymbolicPoly
