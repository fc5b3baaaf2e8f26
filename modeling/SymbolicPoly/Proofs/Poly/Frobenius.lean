import Mathlib.Algebra.CharP.Algebra
import Mathlib.Algebra.CharP.Lemmas
import Mathlib.Algebra.MvPolynomial.Expand
import Mathlib.FieldTheory.Finite.Basic
import Mathlib.RingTheory.MvPolynomial.Basic
import SymbolicPoly.Proofs.Poly.Power

/-!
# Frobenius — powers with the characteristic as exponent

Modulo a prime number `n` the `n`-th power of every residue is the residue itself, and in the `n`-th
power of a sum all mixed terms vanish. So the `n`-th power of a polynomial is the polynomial with all
exponents multiplied by `n`, and the powers of two polynomials add up to the power of their sum
(`pow_frobenius`).

The power of the sum exists if those of the summands do. Terms of the sum may have vanished, but none
is new, so no exponent in it is larger than in the summands.
-/

namespace SymbolicPoly

universe u v

/-! ## The characteristic -/

namespace CoeffRing

variable {R : Type u} {S : Type v} [CommRing R] [CommRing S] {K : CoeffRing R} [K.Agrees]

/-- Reading elements in another ring is a homomorphism. -/
def Reads.toRingHom {view : R → S} (h : K.Reads view) : R →+* S where
  toFun := view
  map_zero' := by simpa using h.zero
  map_one' := by simpa using h.one
  map_add' a b := by simpa using h.add a b
  map_mul' a b := by simpa using h.mul a b

namespace Modular

variable {m : Nat} {value : R → Nat}

theorem charP (h : K.Modular m value) : CharP R m :=
  h.reads.toRingHom.charP h.reads.injective m

theorem pow_prime (h : K.Modular m value) (hm : m.Prime) (a : R) : a ^ m = a := by
  have _ : Fact m.Prime := ⟨hm⟩
  apply h.reads.injective
  calc
    (value (a ^ m) : ZMod m) = (value (K.pow a m) : ZMod m) := by rw [Agrees.pow_eq]
    _ = (value a : ZMod m) ^ m := h.reads.pow a m
    _ = value a := ZMod.pow_card _

end Modular

end CoeffRing

/-! ## Multiplied exponents -/

variable {R : Type u}

/-- Every exponent of `m'` is `n` times that of `m`. -/
def Monomial.IsPower (n : Nat) (m m' : Monomial) : Prop :=
  ∀ s, (m'.exponent s).toNat = n * (m.exponent s).toNat

theorem Monomial.isPower_iff_toFinsupp {n : Nat} {m m' : Monomial} :
    IsPower n m m' ↔ n • m.toFinsupp = m'.toFinsupp := by
  simp [IsPower, Finsupp.ext_iff, eq_comm]

namespace Poly

/-- The terms of `r` are those of `p` with every exponent multiplied by `n`. -/
structure MultipliesExponents (n : Nat) (p r : Poly R) : Prop where
  exists_power : ∀ {m c}, p.coefficient? m = some c →
    ∃ m', Monomial.IsPower n m m' ∧ r.coefficient? m' = some c
  exists_root : ∀ {m' c}, r.coefficient? m' = some c →
    ∃ m, Monomial.IsPower n m m' ∧ p.coefficient? m = some c

section Agrees

variable [CommRing R] {K : CoeffRing R} [K.Agrees] {p q r s : Poly R} {n : Nat}

theorem Canonical.mem_support_toMvPolynomial_iff (hp : p.Canonical K) {d : Symbol →₀ Nat} :
    d ∈ p.toMvPolynomial.support ↔ ∃ m c, p.coefficient? m = some c ∧ m.toFinsupp = d := by
  rw [Poly.mem_support_toMvPolynomial_iff (K := K), hp.nonzeroTerms_eq]
  simp only [Prod.exists, mem_toList_iff, exists_and_right]

theorem coeff_toMvPolynomial_of_stored {m : Monomial} {c : R} (h : p.coefficient? m = some c) :
    p.toMvPolynomial.coeff m.toFinsupp = c := by
  rw [toMvPolynomial, coeff_termSum]
  exact listedCoeff_of_mem (nodup_keys_toList p) (mem_toList_iff.2 h)

theorem multipliesExponents_of_expand (hn : n ≠ 0) (hp : p.Canonical K) (hr : r.Canonical K)
    (h : r.toMvPolynomial = MvPolynomial.expand n p.toMvPolynomial) :
    MultipliesExponents n p r := by
  -- A term of one polynomial is met in the other one, and there it has the same coefficient.
  have hsupport : r.toMvPolynomial.support = p.toMvPolynomial.support.image (n • ·) := by
    rw [h, MvPolynomial.support_expand _ hn]
  have hcoeff : ∀ {m m' : Monomial} {c d : R}, Monomial.IsPower n m m' → p.coefficient? m = some c →
      r.coefficient? m' = some d → c = d := by
    intro m m' c d hpower hc hd
    calc
      c = p.toMvPolynomial.coeff m.toFinsupp := (coeff_toMvPolynomial_of_stored hc).symm
      _ = r.toMvPolynomial.coeff m'.toFinsupp := by
            rw [h, ← Monomial.isPower_iff_toFinsupp.1 hpower, MvPolynomial.coeff_expand_smul _ hn]
      _ = d := coeff_toMvPolynomial_of_stored hd
  refine ⟨?_, ?_⟩
  · intro m c hc
    have hmem : n • m.toFinsupp ∈ r.toMvPolynomial.support := by
      rw [hsupport]
      exact Finset.mem_image_of_mem _ (hp.mem_support_toMvPolynomial_iff.2 ⟨m, c, hc, rfl⟩)
    rcases hr.mem_support_toMvPolynomial_iff.1 hmem with ⟨m', d, hd, hm'⟩
    have hpower := Monomial.isPower_iff_toFinsupp.2 hm'.symm
    exact ⟨m', hpower, hcoeff hpower hc hd ▸ hd⟩
  · intro m' d hd
    have hmem : m'.toFinsupp ∈ p.toMvPolynomial.support.image (n • ·) := by
      rw [← hsupport]
      exact hr.mem_support_toMvPolynomial_iff.2 ⟨m', d, hd, rfl⟩
    rcases Finset.mem_image.1 hmem with ⟨d', hroot, hm'⟩
    rcases hp.mem_support_toMvPolynomial_iff.1 hroot with ⟨m, c, hc, rfl⟩
    have hpower := Monomial.isPower_iff_toFinsupp.2 hm'
    exact ⟨m, hpower, hcoeff hpower hc hd ▸ hc⟩

/-! ## Powers of a sum -/

/-- A sum has no exponent that is larger than all in its summands. -/
theorem degreeIn_add_le (p q : Poly R) (v : Symbol) :
    ((p.add K q).degreeIn K v).toNat ≤ max (p.degreeIn K v).toNat (q.degreeIn K v).toNat := by
  simp only [toNat_degreeIn_eq_degreeOf, toMvPolynomial_add]
  exact MvPolynomial.degreeOf_add_le v _ _

theorem Canonical.exists_pow_add [NoZeroDivisors R] [Nontrivial R] (hp : p.Canonical K)
    (hq : q.Canonical K) (hr : p.pow K n = .ok r) (hs : q.pow K n = .ok s) :
    ∃ t, (p.add K q).pow K n = .ok t := by
  refine (hp.add hq).exists_pow_of_degreeIn fun v => ?_
  have hpv := hp.exists_pow_iff_degreeIn.1 ⟨r, hr⟩ v
  have hqv := hq.exists_pow_iff_degreeIn.1 ⟨s, hs⟩ v
  rcases le_max_iff.1 (degreeIn_add_le (K := K) p q v) with hle | hle
  · exact (Nat.mul_le_mul_left n hle).trans_lt hpv
  · exact (Nat.mul_le_mul_left n hle).trans_lt hqv

variable [Fact n.Prime] [CharP R n]

theorem Canonical.pow_add_frobenius [NoZeroDivisors R] [Nontrivial R] (hp : p.Canonical K)
    (hq : q.Canonical K) (hr : p.pow K n = .ok r) (hs : q.pow K n = .ok s) :
    (p.add K q).pow K n = .ok (r.add K s) := by
  rcases hp.exists_pow_add hq hr hs with ⟨t, ht⟩
  rw [ht]
  refine congrArg Except.ok ?_
  apply (canonical_pow ht).ext_toMvPolynomial ((canonical_pow hr).add (canonical_pow hs))
  calc
    t.toMvPolynomial = (p.add K q).toMvPolynomial ^ n := toMvPolynomial_pow ht
    _ = (p.toMvPolynomial + q.toMvPolynomial) ^ n := by rw [toMvPolynomial_add]
    _ = p.toMvPolynomial ^ n + q.toMvPolynomial ^ n := add_pow_char _ _ n
    _ = r.toMvPolynomial + s.toMvPolynomial := by
          rw [toMvPolynomial_pow hr, toMvPolynomial_pow hs]
    _ = (r.add K s).toMvPolynomial := (toMvPolynomial_add r s).symm

/-! ## Powers of a polynomial -/

/-- The power is additive, and on constants and symbols it does what multiplying exponents does. -/
theorem pow_eq_expand (hpow : ∀ a : R, a ^ n = a) (f : MvPolynomial Symbol R) :
    f ^ n = MvPolynomial.expand n f := by
  induction f using MvPolynomial.induction_on with
  | C a =>
      rw [← MvPolynomial.C_pow, hpow, MvPolynomial.expand_C]
  | add f g hf hg =>
      rw [add_pow_char, hf, hg, map_add]
  | mul_X f v hf =>
      rw [mul_pow, hf, map_mul, MvPolynomial.expand_X]

theorem Canonical.multipliesExponents_of_pow (hpow : ∀ a : R, a ^ n = a) (hp : p.Canonical K)
    (hr : p.pow K n = .ok r) : MultipliesExponents n p r := by
  refine multipliesExponents_of_expand (Fact.out : n.Prime).ne_zero hp (canonical_pow hr) ?_
  rw [toMvPolynomial_pow hr, pow_eq_expand hpow]

end Agrees

/-- Modulo a prime number `n`, the `n`-th powers of two polynomials add up to that of their sum, which
exists if they do, and an `n`-th power has the terms of its base with all exponents multiplied. -/
theorem pow_frobenius (n : Nat) [NonzeroModulus n] (hn : n.Prime) :
    let K := (finiteField n).toCoeffRing
    (∀ p q r s : Poly (FiniteField n), p.Canonical K → q.Canonical K →
      p.pow K n = .ok r → q.pow K n = .ok s → (p.add K q).pow K n = .ok (r.add K s)) ∧
    ∀ p r : Poly (FiniteField n), p.Canonical K → p.pow K n = .ok r →
      MultipliesExponents n p r := by
  intro K
  have hmodular : K.Modular n FiniteField.value := modular_finiteField n
  have hdomain := isDomain_finiteField hn
  let _ := hmodular.reads.lawful.toCommRing
  have _ := hmodular.reads.lawful.agrees
  have _ : NoZeroDivisors (FiniteField n) := CoeffRing.noZeroDivisors hdomain.eq_zero_or_eq_zero
  have _ : Nontrivial (FiniteField n) := ⟨K.one, K.zero, hdomain.one_ne_zero⟩
  have _ : Fact n.Prime := ⟨hn⟩
  have _ : CharP (FiniteField n) n := hmodular.charP
  refine ⟨?_, ?_⟩
  · intro p q r s hp hq hr hs
    exact hp.pow_add_frobenius hq hr hs
  · intro p r hp hr
    exact hp.multipliesExponents_of_pow (hmodular.pow_prime hn) hr

/-- Modulo three, with the largest exponent in the cubes. The terms that have it vanish in the sum. -/
theorem pow_frobenius_largest_exponent :
    let K := (finiteField 3).toCoeffRing
    let x : Monomial := Monomial.one.withExponent ⟨"x"⟩ 1431655765
    let cube : Monomial := Monomial.one.withExponent ⟨"x"⟩ 4294967295
    let y : Monomial := .ofSymbol ⟨"y"⟩
    let p : Poly (FiniteField 3) := ofTerms K [(x, K.ofInt 2), (y, K.one)]
    let q : Poly (FiniteField 3) := ofTerms K [(x, K.one), (.one, K.ofInt 2)]
    Nat.Prime 3 ∧ p.Canonical K ∧ q.Canonical K ∧ ∃ r s, p.pow K 3 = .ok r ∧ q.pow K 3 = .ok s ∧
      (p.add K q).pow K 3 = .ok (r.add K s) ∧ p.add K q = ofTerms K [(y, K.one), (.one, K.ofInt 2)] ∧
      MultipliesExponents 3 p r ∧ r.coefficient? cube = some (K.ofInt 2) := by
  intro K x cube y p q
  have hp : p.Canonical K := by decide +kernel
  have hq : q.Canonical K := by decide +kernel
  have hcube : (p.pow K 3).toOption.map (·.coefficient? cube) = some (some (K.ofInt 2)) := by
    decide +kernel
  have hrun : (q.pow K 3).isOk = true := by decide +kernel
  rcases pow_frobenius 3 (by decide) with ⟨hsum, hpower⟩
  rcases Outcome.exists_eq_ok_of_toOption_map hcube with ⟨r, hr, hcube⟩
  rcases Outcome.exists_eq_ok_of_isOk hrun with ⟨s, hs⟩
  exact ⟨by decide, hp, hq, r, s, hr, hs, hsum p q r s hp hq hr hs, by decide +kernel,
    hpower p r hp hr, hcube⟩

end Poly

end SymbolicPoly
