import Mathlib.Data.Nat.Prime.Basic
import SymbolicPoly.Proofs.Ring.Calculation
import SymbolicPoly.Proofs.Ring.Euclid

/-!
# Division — quotients by the units of a ring

A quotient is a product with the inverse of the divisor. Where `inv?` finds the inverses that there
are, quotients by units exist and others do not, and a quotient is determined by its product with the
divisor (`dividesByUnits_of_inv?`).

In both kinds of residues the inverse is found by the extended Euclidean algorithm, so the units are
the residues that are coprime to the modulus. Modulo a prime number these are all but zero.
-/

namespace SymbolicPoly

universe u

variable {R : Type u}

/-! ## Fields with a partial inverse -/

namespace CoeffField

/-- Units have their inverse, and a quotient exists exactly if the divisor is a unit. No other element
has the same product with the divisor. -/
structure DividesByUnits (K : CoeffField R) : Prop where
  inv?_eq_some_iff : ∀ a b, K.inv? a = some b ↔ K.mul a b = K.one
  exists_div?_iff : ∀ x y, (∃ z, K.div? x y = some z) ↔ ∃ u, K.mul y u = K.one
  mul_eq : ∀ {x y z}, K.div? x y = some z → K.mul z y = x
  eq_of_mul_eq : ∀ {x y z z'}, K.div? x y = some z → K.mul z' y = x → z' = z

theorem dividesByUnits_of_inv? {K : CoeffField R} (hK : K.Lawful)
    (hinv : ∀ a b, K.inv? a = some b ↔ K.mul a b = K.one)
    (hdiv : ∀ a b, K.div? a b = (K.inv? b).map (K.mul a)) : K.DividesByUnits := by
  let _ := hK.toCommRing
  have _ := hK.agrees
  have hquotient : ∀ {x y z}, K.div? x y = some z ↔ ∃ u, y * u = 1 ∧ x * u = z := by
    intro x y z
    simp [hdiv, hinv]
  refine ⟨hinv, ?_, ?_, ?_⟩
  · intro x y
    simp [hquotient]
  · intro x y z hz
    rcases hquotient.1 hz with ⟨u, hu, rfl⟩
    calc
      K.mul (x * u) y = x * (y * u) := by rw [CoeffRing.Agrees.mul_eq, mul_assoc, mul_comm u]
      _ = x := by rw [hu, mul_one]
  · intro x y z z' hz hz'
    rcases hquotient.1 hz with ⟨u, hu, rfl⟩
    calc
      z' = z' * (y * u) := by rw [hu, mul_one]
      _ = K.mul z' y * u := by rw [CoeffRing.Agrees.mul_eq, mul_assoc]
      _ = x * u := by rw [hz']

end CoeffField

/-! ## Residues -/

namespace CoeffRing.Modular

variable {K : CoeffField R} {m : Nat} {value : R → Nat}

theorem pos (h : K.Modular m value) : 0 < m :=
  Nat.pos_of_ne_zero fun hm => Nat.not_lt_zero _ (hm ▸ h.value_lt K.zero)

theorem mul_eq_one_iff (h : K.Modular m value) (a b : R) :
    K.mul a b = K.one ↔ value a * value b ≡ 1 [MOD m] := by
  rw [← h.injective.eq_iff, h.value_mul, h.value_one, Nat.ModEq]

theorem inv?_eq_some_iff (h : K.Modular m value)
    (hinv : ∀ a, K.inv? a = (modularInverse? (value a) m).map fun b : Nat => K.ofInt b) (a b : R) :
    K.inv? a = some b ↔ K.mul a b = K.one := by
  have hvalue : ∀ {c : Nat}, c < m → value (K.ofInt c) = c := by
    intro c hc
    rw [h.value_ofInt, ← Int.natCast_emod, Int.toNat_natCast, Nat.mod_eq_of_lt hc]
  rw [hinv, Option.map_eq_some_iff, h.mul_eq_one_iff]
  constructor
  · rintro ⟨c, hc, rfl⟩
    rcases (modularInverse?_eq_some_iff h.pos).1 hc with ⟨hlt, hproduct⟩
    rwa [hvalue hlt]
  · intro hproduct
    refine ⟨value b, (modularInverse?_eq_some_iff h.pos).2 ⟨h.value_lt b, hproduct⟩, ?_⟩
    exact h.injective (hvalue (h.value_lt b))

theorem exists_inv?_iff_coprime (h : K.Modular m value)
    (hinv : ∀ a, K.inv? a = (modularInverse? (value a) m).map fun b : Nat => K.ofInt b) (a : R) :
    (∃ b, K.inv? a = some b) ↔ (value a).Coprime m := by
  simp only [hinv, Option.map_eq_some_iff]
  constructor
  · rintro ⟨-, c, hc, -⟩
    by_contra hnot
    cases (modularInverse?_of_not_coprime hnot).symm.trans hc
  · intro hcoprime
    rcases exists_modularInverse?_of_coprime h.pos hcoprime with ⟨c, hc, -⟩
    exact ⟨K.ofInt c, c, hc, rfl⟩

/-- Below a prime number only zero has a factor in common with it. -/
theorem exists_inv?_iff_ne_zero (h : K.Modular m value)
    (hinv : ∀ a, K.inv? a = (modularInverse? (value a) m).map fun b : Nat => K.ofInt b)
    (hm : m.Prime) (a : R) : (∃ b, K.inv? a = some b) ↔ a ≠ K.zero := by
  rw [h.exists_inv?_iff_coprime hinv, ← h.injective.ne_iff, h.value_zero]
  constructor
  · intro hcoprime hzero
    rw [hzero, Nat.coprime_zero_left] at hcoprime
    exact hm.one_lt.ne' hcoprime
  · intro hne
    exact (Nat.coprime_of_lt_prime hne (h.value_lt a) hm).symm

theorem dividesByUnits (h : K.Modular m value)
    (hinv : ∀ a, K.inv? a = (modularInverse? (value a) m).map fun b : Nat => K.ofInt b)
    (hdiv : ∀ a b, K.div? a b = (K.inv? b).map (K.mul a)) : K.DividesByUnits :=
  CoeffField.dividesByUnits_of_inv? h.reads.lawful (h.inv?_eq_some_iff hinv) hdiv

end CoeffRing.Modular

/-- The extended algorithm ends and finds the inverse of every number that is coprime to the modulus,
and none of any other. So residues are divided by units, and modulo a prime by all but zero. -/
theorem modular_division :
    (∀ a m : Nat, 0 < m →
      (∃ n, (EuclidState.start a m).run = EuclidState.next^[n] (.start a m) ∧
        (EuclidState.next^[n] (.start a m)).nextRemainder = 0 ∧
        ∀ k < n, (EuclidState.next^[k] (.start a m)).nextRemainder ≠ 0) ∧
      (a.gcd m = 1 → ∃ b, modularInverse? a m = some b ∧ b < m ∧ a * b ≡ 1 [MOD m] ∧
        ∀ c < m, a * c ≡ 1 [MOD m] → c = b) ∧
      (a.gcd m ≠ 1 → modularInverse? a m = none)) ∧
    (∀ a, modularInverse? a 1 = some 0) ∧
    (∀ m : Modulus, (integersMod m).DividesByUnits ∧
      (m.word.toNat.Prime →
        ∀ a, (∃ b, (integersMod m).inv? a = some b) ↔ a ≠ (integersMod m).zero)) ∧
    ∀ (p : Nat) [NonzeroModulus p], (finiteField p).DividesByUnits ∧
      (p.Prime → ∀ a, (∃ b, (finiteField p).inv? a = some b) ↔ a ≠ (finiteField p).zero) := by
  refine ⟨?_, ?_, ?_, ?_⟩
  · intro a m hm
    refine ⟨EuclidState.run_eq_iterate _, ?_, modularInverse?_of_not_coprime⟩
    intro hcoprime
    rcases exists_modularInverse?_of_coprime hm hcoprime with ⟨b, hb, hproduct⟩
    refine ⟨b, hb, modularInverse?_lt hm hb, hproduct, ?_⟩
    intro c hlt hc
    cases hb.symm.trans ((modularInverse?_eq_some_iff hm).2 ⟨hlt, hc⟩)
    rfl
  · intro a
    exact (modularInverse?_eq_some_iff Nat.one_pos).2 ⟨Nat.one_pos, Nat.modEq_one⟩
  · intro m
    have hmodular := modular_integersMod m
    exact ⟨hmodular.dividesByUnits Residue.inv?_eq fun _ _ => rfl,
      hmodular.exists_inv?_iff_ne_zero Residue.inv?_eq⟩
  · intro p _
    have hmodular := modular_finiteField p
    exact ⟨hmodular.dividesByUnits FiniteField.inv?_eq fun _ _ => rfl,
      hmodular.exists_inv?_iff_ne_zero FiniteField.inv?_eq⟩

/-- Modulo the largest word two is inverted and three, which divides it, is not. Modulo seven three
is inverted and zero is not. -/
theorem modular_division_largest_modulus :
    modularInverse? 2 18446744073709551615 = some 9223372036854775808 ∧
      modularInverse? 3 18446744073709551615 = none ∧
      let seven : Modulus := ⟨7, by decide⟩
      (integersMod seven).div? (.ofWord seven 2) (.ofWord seven 3) = some (.ofWord seven 3) ∧
        (∃ b, (integersMod seven).inv? (.ofWord seven 3) = some b) ∧
        ¬ ∃ b, (integersMod seven).inv? (integersMod seven).zero = some b := by
  rcases modular_division with ⟨hnumbers, -, hwords, -⟩
  rcases hnumbers 2 18446744073709551615 (by decide) with ⟨-, hcoprime, -⟩
  rcases hcoprime (by decide +kernel) with ⟨b, hb, -, -, hunique⟩
  have hhalf : 9223372036854775808 = b := hunique _ (by decide) (by decide)
  have hnone := (hnumbers 3 18446744073709551615 (by decide)).2.2 (by decide +kernel)
  refine ⟨hhalf ▸ hb, hnone, ?_⟩
  intro seven
  rcases hwords seven with ⟨hdivides, hprime⟩
  have hunit : ∃ u, (integersMod seven).mul (.ofWord seven 3) u = (integersMod seven).one :=
    ⟨.ofWord seven 5, by decide⟩
  rcases (hdivides.exists_div?_iff (.ofWord seven 2) _).2 hunit with ⟨z, hz⟩
  have hquotient : .ofWord seven 3 = z := hdivides.eq_of_mul_eq hz (by decide)
  have hinverse := hprime (by decide)
  exact ⟨hquotient ▸ hz, (hinverse _).2 (by decide), fun h => (hinverse _).1 h rfl⟩

end SymbolicPoly
