import Mathlib.FieldTheory.Finite.Basic
import Mathlib.Tactic.NormNum.Prime
import SymbolicPoly.Proofs.Ring.Division

/-!
# Fermat — inverses as powers

Modulo a prime number `p` the power `p - 1` of every residue but zero is one. Hence its power `p - 2`
is the inverse that the extended Euclidean algorithm finds: repeated squaring and the divisions of
remainders have no step in common and end at the same residue. Zero has no inverse.

The argument is made once, for the operations that both kinds of residues have
(`CoeffRing.Modular.invertsByPowers`).
-/

namespace SymbolicPoly

universe u

variable {R : Type u}

/-- Powers with exponent `p - 1` are one and powers with exponent `p - 2` are inverses, except at zero,
which has none. -/
structure CoeffField.InvertsByPowers (K : CoeffField R) (p : Nat) : Prop where
  pow_pred_eq_one : ∀ a, a ≠ K.zero → K.pow a (p - 1) = K.one
  inv?_eq_pow : ∀ a, a ≠ K.zero → K.inv? a = some (K.pow a (p - 2))
  inv?_zero : K.inv? K.zero = none

namespace CoeffRing.Modular

variable {m : Nat} {value : R → Nat}

theorem pow_pred_eq_one {K : CoeffRing R} (h : K.Modular m value) (hm : m.Prime) {a : R}
    (ha : a ≠ K.zero) : K.pow a (m - 1) = K.one := by
  have _ : Fact m.Prime := ⟨hm⟩
  have hne : (value a : ZMod m) ≠ 0 := by
    rw [← h.reads.zero, h.reads.injective.ne_iff]
    exact ha
  apply h.reads.injective
  calc
    (value (K.pow a (m - 1)) : ZMod m) = (value a : ZMod m) ^ (m - 1) := h.reads.pow a (m - 1)
    _ = 1 := ZMod.pow_card_sub_one_eq_one hne
    _ = value K.one := h.reads.one.symm

theorem mul_pow_eq_one {K : CoeffRing R} (h : K.Modular m value) (hm : m.Prime) {a : R}
    (ha : a ≠ K.zero) : K.mul a (K.pow a (m - 2)) = K.one := by
  let _ := h.reads.lawful.toCommRing
  have _ := h.reads.lawful.agrees
  have hexponent : m - 1 = (m - 2) + 1 := by
    have htwo := hm.two_le
    omega
  calc
    K.mul a (K.pow a (m - 2)) = a * a ^ (m - 2) := by simp
    _ = a ^ (m - 1) := by rw [hexponent, pow_succ']
    _ = K.pow a (m - 1) := (CoeffRing.Agrees.pow_eq a (m - 1)).symm
    _ = K.one := h.pow_pred_eq_one hm ha

theorem invertsByPowers {K : CoeffField R} (h : K.Modular m value)
    (hinv : ∀ a, K.inv? a = (modularInverse? (value a) m).map fun b : Nat => K.ofInt b)
    (hm : m.Prime) : K.InvertsByPowers m where
  pow_pred_eq_one _ ha := h.pow_pred_eq_one hm ha
  inv?_eq_pow a ha := (h.inv?_eq_some_iff hinv a _).2 (h.mul_pow_eq_one hm ha)
  inv?_zero := by
    have hnone : ¬ ∃ b, K.inv? K.zero = some b := fun hb =>
      (h.exists_inv?_iff_ne_zero hinv hm K.zero).1 hb rfl
    exact Option.eq_none_iff_forall_ne_some.2 fun b hb => hnone ⟨b, hb⟩

end CoeffRing.Modular

/-- Modulo every prime number, in both kinds of residues, Euclid's inverse is Fermat's power. -/
theorem euclid_inverse_is_fermat_power :
    (∀ (p : Nat) [NonzeroModulus p], p.Prime → (finiteField p).InvertsByPowers p) ∧
      ∀ w : UInt64, w.toNat.Prime →
        ∃ m : Modulus, Modulus.ofWord w = .ok m ∧ (integersMod m).InvertsByPowers w.toNat := by
  refine ⟨?_, ?_⟩
  · intro p _ hp
    exact (modular_finiteField p).invertsByPowers FiniteField.inv?_eq hp
  · intro w hw
    refine ⟨⟨w, hw.pos⟩, dif_pos hw.pos, ?_⟩
    exact (modular_integersMod ⟨w, hw.pos⟩).invertsByPowers Residue.inv?_eq hw

/-- Modulo the prime number 65537 three has its inverse at the power 65535, in both kinds of residues. -/
theorem euclid_inverse_is_fermat_power_of_three :
    let p := 65537
    let a : FiniteField p := .ofNat p 3
    p.Prime ∧ a ≠ (finiteField p).zero ∧ (finiteField p).pow a 65536 = (finiteField p).one ∧
      (finiteField p).inv? a = some ((finiteField p).pow a 65535) ∧
      ∃ m : Modulus, Modulus.ofWord 65537 = .ok m ∧
        (integersMod m).inv? (.ofWord m 3) = some ((integersMod m).pow (.ofWord m 3) 65535) ∧
        (integersMod m).inv? (.ofWord m 3) = some (.ofWord m 21846) ∧
        (integersMod m).inv? (integersMod m).zero = none := by
  intro p a
  have hp : p.Prime := by norm_num [p]
  have ha : a ≠ (finiteField p).zero := by decide +kernel
  rcases euclid_inverse_is_fermat_power with ⟨hfield, hword⟩
  rcases hword 65537 hp with ⟨m, hm, hpowers⟩
  -- The modulus that is made is the one that is expected.
  cases (Except.ok.inj (hm.symm.trans (dif_pos (by decide))) : m = ⟨65537, by decide⟩)
  have hinverse := hpowers.inv?_eq_pow (.ofWord _ 3) (by decide +kernel)
  exact ⟨hp, ha, (hfield p hp).pow_pred_eq_one a ha, (hfield p hp).inv?_eq_pow a ha, _, hm, hinverse,
    hinverse.trans (congrArg some (by decide +kernel)), hpowers.inv?_zero⟩

end SymbolicPoly
