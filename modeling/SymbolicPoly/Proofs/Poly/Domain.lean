import SymbolicPoly.Proofs.Poly.GradedTerms
import SymbolicPoly.Proofs.Ring.Instances

/-!
# Products over a domain — leading terms multiply and degrees add up

Where nonzero coefficients have nonzero products, the product of two polynomials that are not zero is
not zero. Its first term is the product of the first terms, its degrees are the sums of the degrees,
also those in a single symbol or a set of symbols, and its variables are those of the factors.

Terms of a product may still cancel, over a domain too. The terms that decide about a degree do not:
each degree is a weight, and the weights of two factors add up (`Leading.isGreatest_weight_mul`).

The integers, the rationals and the residues modulo a prime are such rings (`isDomain_integers`,
`isDomain_rationals`, `isDomain_finiteField`).
-/

namespace SymbolicPoly

universe u

variable {R : Type u} {K : CoeffRing R}

theorem CoeffRing.noZeroDivisors [CommRing R] [K.Agrees]
    (h : ∀ a b, K.mul a b = K.zero → a = K.zero ∨ b = K.zero) : NoZeroDivisors R where
  eq_zero_or_eq_zero_of_mul_eq_zero {a b} := by simpa using h a b

namespace Poly

section Agrees

variable [CommRing R] [K.Agrees] {p q r : Poly R}

theorem Canonical.toMvPolynomial_ne_zero (hp : p.Canonical K) (hne : p ≠ ∅) :
    p.toMvPolynomial ≠ 0 := by
  simpa [hp.toMvPolynomial_eq_zero_iff] using hne

theorem Canonical.exists_head?_gradedTerms (hp : p.Canonical K) (hne : p ≠ ∅) :
    ∃ m c, p.gradedTerms.head? = some (m, c) := by
  rcases Leading.exists_isLeading gradedHom (hp.toMvPolynomial_ne_zero hne) with ⟨d, hd⟩
  rcases (mem_support_toMvPolynomial_iff (K := K)).1 hd.mem_support with ⟨t, -, rfl⟩
  exact ⟨t.1, _, hp.head?_gradedTerms_eq_some_iff.2 ⟨hd, rfl⟩⟩

variable [NoZeroDivisors R]

/-! ## Products -/

theorem Canonical.mul_ne_empty (hp : p.Canonical K) (hq : q.Canonical K) (hpe : p ≠ ∅) (hqe : q ≠ ∅)
    (h : p.mul K q = .ok r) : r ≠ ∅ := by
  rintro rfl
  have hzero := toMvPolynomial_mul h
  rw [toMvPolynomial_empty] at hzero
  exact mul_ne_zero (hp.toMvPolynomial_ne_zero hpe) (hq.toMvPolynomial_ne_zero hqe) hzero.symm

/-- The leading terms have a product, and no other product of terms meets it. -/
theorem Canonical.head?_gradedTerms_mul (hp : p.Canonical K) (hq : q.Canonical K)
    (h : p.mul K q = .ok r) {m m' : Monomial} {c c' : R}
    (hm : p.gradedTerms.head? = some (m, c)) (hm' : q.gradedTerms.head? = some (m', c')) :
    ∃ n, m.mul m' = .ok n ∧ r.gradedTerms.head? = some (n, K.mul c c') := by
  have hmem := (Poly.head?_gradedTerms_eq_some_iff.1 hm).1
  have hmem' := (Poly.head?_gradedTerms_eq_some_iff.1 hm').1
  -- The product of all terms exists, so that of the first ones does.
  rcases exists_mul_eq_ok_iff.1 ⟨r, h⟩ _ hmem _ hmem' with ⟨n, hn⟩
  rcases hp.head?_gradedTerms_eq_some_iff.1 hm with ⟨hleading, hcoeff⟩
  rcases hq.head?_gradedTerms_eq_some_iff.1 hm' with ⟨hleading', hcoeff'⟩
  refine ⟨n, hn, (canonical_mul h).head?_gradedTerms_eq_some_iff.2 ?_⟩
  rw [← coeff_toMvPolynomial, toMvPolynomial_mul h, Monomial.mul_eq_ok_iff_toFinsupp.1 hn]
  refine ⟨hleading.mul gradedHom_injective hleading', ?_⟩
  rw [hleading.coeff_mul gradedHom_injective hleading', coeff_toMvPolynomial (K := K),
    coeff_toMvPolynomial (K := K), hcoeff, hcoeff', CoeffRing.Agrees.mul_eq]

theorem Canonical.degreeIn_mul (hp : p.Canonical K) (hq : q.Canonical K) (hpe : p ≠ ∅) (hqe : q ≠ ∅)
    (h : p.mul K q = .ok r) (s : Symbol) :
    (r.degreeIn K s).toNat = (p.degreeIn K s).toNat + (q.degreeIn K s).toNat := by
  have hr := (canonical_mul h).toMvPolynomial_ne_zero (hp.mul_ne_empty hq hpe hqe h)
  have hmax := isGreatest_degreeIn (K := K) hr s
  rw [toMvPolynomial_mul h] at hmax
  exact hmax.unique (Leading.isGreatest_weight_mul
    (isGreatest_degreeIn (hp.toMvPolynomial_ne_zero hpe) s)
    (isGreatest_degreeIn (hq.toMvPolynomial_ne_zero hqe) s))

theorem Canonical.degreeInSet_mul (hp : p.Canonical K) (hq : q.Canonical K) (hpe : p ≠ ∅)
    (hqe : q ≠ ∅) (h : p.mul K q = .ok r) (symbols : Std.ExtTreeSet Symbol) :
    r.degreeInSet K symbols = p.degreeInSet K symbols + q.degreeInSet K symbols := by
  have hr := (canonical_mul h).toMvPolynomial_ne_zero (hp.mul_ne_empty hq hpe hqe h)
  have hmax := isGreatest_degreeInSet (K := K) hr symbols
  rw [toMvPolynomial_mul h] at hmax
  exact hmax.unique (Leading.isGreatest_weight_mul
    (isGreatest_degreeInSet (hp.toMvPolynomial_ne_zero hpe) symbols)
    (isGreatest_degreeInSet (hq.toMvPolynomial_ne_zero hqe) symbols))

theorem Canonical.degree_mul (hp : p.Canonical K) (hq : q.Canonical K) (hpe : p ≠ ∅) (hqe : q ≠ ∅)
    (h : p.mul K q = .ok r) : r.degree K = p.degree K + q.degree K := by
  have hr := (canonical_mul h).toMvPolynomial_ne_zero (hp.mul_ne_empty hq hpe hqe h)
  -- None of the three degrees is -1, and as natural numbers they are largest weights.
  rcases isGreatest_degree (K := K) (hp.toMvPolynomial_ne_zero hpe) with ⟨a, ha, hamax⟩
  rcases isGreatest_degree (K := K) (hq.toMvPolynomial_ne_zero hqe) with ⟨b, hb, hbmax⟩
  rcases isGreatest_degree (K := K) hr with ⟨d, hd, hdmax⟩
  rw [toMvPolynomial_mul h] at hdmax
  have hsum : d = a + b := hdmax.unique (Leading.isGreatest_weight_mul hamax hbmax)
  rw [ha, hb, hd, hsum, Int.natCast_add]

theorem Canonical.vars_mul (hp : p.Canonical K) (hq : q.Canonical K) (hpe : p ≠ ∅) (hqe : q ≠ ∅)
    (h : p.mul K q = .ok r) : r.vars K = p.vars K ∪ q.vars K := by
  refine Std.ExtTreeSet.ext_mem fun s => ?_
  -- A symbol occurs exactly if its degree is positive, and degrees add up.
  have hsum := hp.degreeIn_mul hq hpe hqe h s
  have hvars : ∀ p : Poly R, s ∈ p.vars K ↔ (p.degreeIn K s).toNat ≠ 0 := by
    intro p
    exact mem_vars_iff_degreeIn.trans (not_congr UInt32.toNat_inj.symm)
  rw [Std.ExtTreeSet.mem_union_iff, hvars, hvars, hvars, hsum]
  omega

/-! ## Powers -/

theorem Canonical.degree_pow [Nontrivial R] (hp : p.Canonical K) (hpe : p ≠ ∅) {n : Nat}
    (h : p.pow K n = .ok r) : r.degree K = n * p.degree K := by
  have hzero := hp.toMvPolynomial_ne_zero hpe
  have hr : r.toMvPolynomial ≠ 0 := by
    rw [toMvPolynomial_pow h]
    exact pow_ne_zero n hzero
  rcases isGreatest_degree (K := K) hzero with ⟨a, ha, hamax⟩
  rcases isGreatest_degree (K := K) hr with ⟨d, hd, hdmax⟩
  rw [toMvPolynomial_pow h] at hdmax
  have hmul : d = n * a := hdmax.unique (Leading.isGreatest_weight_pow hamax n)
  rw [ha, hd, hmul, Int.natCast_mul]

end Agrees

/-- Over a domain the leading term of a product is the product of the leading terms, and every degree
of it is a sum. -/
theorem product_over_domain (hK : K.Lawful) (hdomain : K.IsDomain) {p q : Poly R}
    (hp : p.Canonical K) (hq : q.Canonical K) (hpe : p.isEmpty = false) (hqe : q.isEmpty = false) :
    (∀ r, p.mul K q = .ok r →
      r.isEmpty = false ∧
        (∃ m c m' c' n, p.gradedTerms.head? = some (m, c) ∧ q.gradedTerms.head? = some (m', c') ∧
          m.mul m' = .ok n ∧ r.gradedTerms.head? = some (n, K.mul c c')) ∧
        r.degree K = p.degree K + q.degree K ∧
        (∀ s, (r.degreeIn K s).toNat = (p.degreeIn K s).toNat + (q.degreeIn K s).toNat) ∧
        (∀ symbols,
          r.degreeInSet K symbols = p.degreeInSet K symbols + q.degreeInSet K symbols) ∧
        r.vars K = p.vars K ∪ q.vars K) ∧
      ∀ n r, p.pow K n = .ok r → r.degree K = n * p.degree K := by
  let _ := hK.toCommRing
  have _ := hK.agrees
  have _ : NoZeroDivisors R := CoeffRing.noZeroDivisors hdomain.eq_zero_or_eq_zero
  have _ : Nontrivial R := ⟨K.one, K.zero, hdomain.one_ne_zero⟩
  have hpe := isEmpty_eq_false_iff.1 hpe
  have hqe := isEmpty_eq_false_iff.1 hqe
  refine ⟨?_, ?_⟩
  · intro r h
    refine ⟨isEmpty_eq_false_iff.2 (hp.mul_ne_empty hq hpe hqe h), ?_, ?_, ?_, ?_, ?_⟩
    · rcases hp.exists_head?_gradedTerms hpe with ⟨m, c, hm⟩
      rcases hq.exists_head?_gradedTerms hqe with ⟨m', c', hm'⟩
      rcases hp.head?_gradedTerms_mul hq h hm hm' with ⟨n, hn, hhead⟩
      exact ⟨m, c, m', c', n, hm, hm', hn, hhead⟩
    · exact hp.degree_mul hq hpe hqe h
    · exact hp.degreeIn_mul hq hpe hqe h
    · exact hp.degreeInSet_mul hq hpe hqe h
    · exact hp.vars_mul hq hpe hqe h
  · intro n r h
    exact hp.degree_pow hpe h

/-- In `(x + y) * (x - y)` the products at `x * y` cancel, and the leading term `x ^ 2` is left. -/
theorem product_over_domain_difference_of_squares :
    let x : Symbol := ⟨"x"⟩
    let y : Symbol := ⟨"y"⟩
    let p : Poly Int := ofTerms integers [(.ofSymbol x, 1), (.ofSymbol y, 1)]
    let q : Poly Int := ofTerms integers [(.ofSymbol x, 1), (.ofSymbol y, -1)]
    integers.Lawful ∧ integers.IsDomain ∧ p.Canonical integers ∧ q.Canonical integers ∧
      p.isEmpty = false ∧ q.isEmpty = false ∧
      ∃ r, p.mul integers q = .ok r ∧ r.gradedTerms.head? = some ((Monomial.one.withExponent x 2), 1) ∧
        r.degree integers = 2 ∧ r.degreeIn integers y = 2 := by
  intro x y p q
  have hp : p.Canonical integers := by decide +kernel
  have hq : q.Canonical integers := by decide +kernel
  have hok : (p.mul integers q).isOk = true := by decide +kernel
  rcases Outcome.exists_eq_ok_of_isOk hok with ⟨r, hr⟩
  have hproduct := (product_over_domain lawful_integers isDomain_integers hp hq (by decide +kernel)
    (by decide +kernel)).1 r hr
  rcases hproduct with ⟨-, ⟨m, c, m', c', n, hm, hm', hn, hhead⟩, hdegree, hdegreeIn, -⟩
  have hfirst : p.gradedTerms.head? = some (.ofSymbol x, 1) :=
    head?_gradedTerms_eq_some_iff.2 (by decide +kernel)
  have hfirst' : q.gradedTerms.head? = some (.ofSymbol x, 1) :=
    head?_gradedTerms_eq_some_iff.2 (by decide +kernel)
  cases hm.symm.trans hfirst
  cases hm'.symm.trans hfirst'
  have hsquare : (Monomial.ofSymbol x).mul (.ofSymbol x) = .ok (Monomial.one.withExponent x 2) := by
    refine Monomial.mul_eq_ok_iff.2 fun s => ?_
    by_cases hs : s = x
    · simp [hs]
    · simp [hs]
  cases hn.symm.trans hsquare
  refine ⟨lawful_integers, isDomain_integers, hp, hq, by decide +kernel, by decide +kernel, r, hr,
    hhead, ?_, ?_⟩
  · rw [hdegree]
    decide +kernel
  · refine UInt32.toNat_inj.1 ((hdegreeIn y).trans ?_)
    decide +kernel

end Poly

end SymbolicPoly
