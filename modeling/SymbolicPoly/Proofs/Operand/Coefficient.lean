import SymbolicPoly.Proofs.Monomial.Factorization
import SymbolicPoly.Proofs.Operand.Arithmetic
import SymbolicPoly.Proofs.Ring.Instances

/-!
# Coefficients of results — sums and convolutions

An operand of any kind has a coefficient at each monomial. The coefficients of a sum, difference or
negative are those of the operands, combined. A coefficient of a product is a convolution: a sum over
the ways to write the monomial as a product of two (`coeff_arithmetic`).

Stored zeros are allowed on both sides, and so are factors that multiply to zero.
-/

namespace SymbolicPoly

namespace Operand

universe u

variable {R : Type u}

/-- The coefficient of a monomial. An operand that is no polynomial has one term. -/
def coeff (K : CoeffRing R) : Operand R → Monomial → R
  | .int n, m => if m = .one then K.ofInt n else K.zero
  | .constant c, m => if m = .one then c else K.zero
  | .symbol s, m => if m = .ofSymbol s then K.one else K.zero
  | .poly p, m => p.coeff K m

section Agrees

variable [CommRing R] {K : CoeffRing R} [K.Agrees]

theorem coeff_lift (x : Operand R) (m : Monomial) : (x.lift K).coeff K m = x.coeff K m := by
  rw [lift_eq_form_lift]
  cases x with
  | int n =>
      simp [form, Form.lift, coeff, Poly.coeff_constant, eq_comm (a := m)]
  | constant c =>
      simp [form, Form.lift, coeff, Poly.coeff_constant, eq_comm (a := m)]
  | symbol s =>
      simp [form, Form.lift, coeff, Poly.coeff_symbol, eq_comm (a := m)]
  | poly p =>
      rfl

/-- The coefficients of the ring of Mathlib, where arithmetic takes place. -/
theorem coeff_toMvPolynomial_lift (x : Operand R) (m : Monomial) :
    (x.lift K).toMvPolynomial.coeff m.toFinsupp = x.coeff K m :=
  (Poly.coeff_toMvPolynomial (x.lift K) m).trans (coeff_lift x m)

theorem coeff_add (x y : Operand R) (m : Monomial) :
    (x.add K y).coeff K m = x.coeff K m + y.coeff K m := by
  apply (Poly.coeff_eq_of_toMvPolynomial_eq (toMvPolynomial_add x y) m).trans
  simp only [MvPolynomial.coeff_add, coeff_toMvPolynomial_lift]

theorem coeff_sub (x y : Operand R) (m : Monomial) :
    (x.sub K y).coeff K m = x.coeff K m - y.coeff K m := by
  apply (Poly.coeff_eq_of_toMvPolynomial_eq (toMvPolynomial_sub x y) m).trans
  simp only [MvPolynomial.coeff_sub, coeff_toMvPolynomial_lift]

theorem coeff_neg (x : Operand R) (m : Monomial) : (x.neg K).coeff K m = -x.coeff K m := by
  apply (Poly.coeff_eq_of_toMvPolynomial_eq (toMvPolynomial_neg x) m).trans
  simp only [MvPolynomial.coeff_neg, coeff_toMvPolynomial_lift]

theorem coeff_mul {x y : Operand R} {q : Poly R} (h : x.mul K y = .ok q) (m : Monomial) :
    q.coeff K m = (m.factorizations.map fun t => x.coeff K t.1 * y.coeff K t.2).sum := by
  apply (Poly.coeff_eq_of_toMvPolynomial_eq (toMvPolynomial_mul h) m).trans
  -- Exponents that add up to those of a monomial are words, so only monomials occur in the sum.
  rw [MvPolynomial.coeff_mul, Monomial.sum_antidiagonal_toFinsupp]
  simp only [coeff_toMvPolynomial_lift]

end Agrees

/-- Arithmetic on operands of any kinds, in terms of coefficients. The factorizations of `m` are all
pairs of monomials with product `m`, each once. -/
theorem coeff_arithmetic {K : CoeffRing R} (hK : K.Lawful) (x y : Operand R) (m : Monomial) :
    (x.add K y).coeff K m = K.add (x.coeff K m) (y.coeff K m) ∧
      (x.sub K y).coeff K m = K.sub (x.coeff K m) (y.coeff K m) ∧
      (x.neg K).coeff K m = K.neg (x.coeff K m) ∧
      (∀ q, x.mul K y = .ok q →
        q.coeff K m =
          K.sum (m.factorizations.map fun t => K.mul (x.coeff K t.1) (y.coeff K t.2))) ∧
      m.factorizations.Nodup ∧ ∀ t, t ∈ m.factorizations ↔ t.1.mul t.2 = .ok m := by
  let _ := hK.toCommRing
  have _ := hK.agrees
  refine ⟨?_, ?_, ?_, ?_, ?_, ?_⟩
  · simpa using coeff_add x y m
  · simpa using coeff_sub x y m
  · simpa using coeff_neg x m
  · intro q h
    simpa using coeff_mul h m
  · exact m.nodup_factorizations
  · intro t
    exact Monomial.mem_factorizations_iff

/-- In `(x + 1) * (x - 1)` the two products at `x` cancel, and the zero stored at `y` stays out. -/
theorem coeff_arithmetic_cancelling :
    integers.Lawful ∧
      let x : Monomial := .ofSymbol ⟨"x"⟩
      let p : Poly Int := .ofStoredTerms [(x, 1), (.one, 1), (.ofSymbol ⟨"y"⟩, 0)]
      let q : Poly Int := .ofStoredTerms [(x, 1), (.one, -1)]
      ∃ r, (Operand.poly p).mul integers (.poly q) = .ok r ∧ r.coeff integers x = 0 := by
  refine ⟨lawful_integers, ?_⟩
  intro x p q
  have hok : ((Operand.poly p).mul integers (.poly q)).isOk = true := by decide +kernel
  rcases Outcome.exists_eq_ok_of_isOk hok with ⟨r, hr⟩
  have hsum := (coeff_arithmetic lawful_integers (.poly p) (.poly q) x).2.2.2.1 r hr
  have hzero : integers.sum (x.factorizations.map fun t =>
      integers.mul (p.coeff integers t.1) (q.coeff integers t.2)) = 0 := by
    decide +kernel
  exact ⟨r, hr, hsum.trans hzero⟩

end Operand

end SymbolicPoly
