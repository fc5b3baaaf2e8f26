import SymbolicPoly.Proofs.Operand.Arithmetic
import SymbolicPoly.Proofs.Poly.Overflow
import SymbolicPoly.Proofs.Ring.Modular

/-!
# Lifting — mixed operands give what their polynomials give

Arithmetic has a path of its own for each combination of kinds. Lifting the operands first leads to
the arithmetic of two polynomials, the same for all kinds. Both ways store the same terms, and a product
fails on the one exactly if it fails on the other (`arithmetic_lift`).

Both results are canonical and denote the same polynomial, hence they are equal. For products it
remains to compare when the paths fail.
-/

namespace SymbolicPoly

namespace Operand

universe u

variable {R : Type u}

section Agrees

variable [CommRing R] {K : CoeffRing R} [K.Agrees] {x y : Operand R}

/-! ## Sums -/

theorem add_eq_add_lift (hx : x.Canonical K) (hy : y.Canonical K) :
    x.add K y = (x.lift K).add K (y.lift K) := by
  apply ((canonical_add hx hy).toMvPolynomial_inj ((canonical_lift hx).add (canonical_lift hy))).1
  rw [toMvPolynomial_add, Poly.toMvPolynomial_add]

theorem sub_eq_sub_lift (hx : x.Canonical K) (hy : y.Canonical K) :
    x.sub K y = (x.lift K).sub K (y.lift K) := by
  apply ((canonical_sub hx hy).toMvPolynomial_inj ((canonical_lift hx).sub (canonical_lift hy))).1
  rw [toMvPolynomial_sub, Poly.toMvPolynomial_sub]

theorem neg_eq_neg_lift (hx : x.Canonical K) : x.neg K = (x.lift K).neg K := by
  apply ((canonical_neg hx).toMvPolynomial_inj (canonical_lift hx).neg).1
  rw [toMvPolynomial_neg, Poly.toMvPolynomial_neg]

/-! ## Products -/

/-- Whatever path a product takes, it exists if the product of the lifted polynomials does. -/
theorem exists_mul_iff_lift (hx : x.Canonical K) (hy : y.Canonical K) :
    (∃ r, x.mul K y = .ok r) ↔ ∃ r, (x.lift K).mul K (y.lift K) = .ok r := by
  simp only [lift_eq_form_lift, mul]
  cases hfx : x.form K with
  | constant c =>
      -- A factor without symbols raises no exponent, on either path.
      have hright : ∃ r, (Poly.constant K c).mul K ((y.form K).lift K) = .ok r :=
        Poly.exists_mul_comm.1 (Poly.exists_mul_constant _ c)
      refine iff_of_true ?_ hright
      cases y.form K <;> exact ⟨_, rfl⟩
  | symbol s =>
      -- Two symbols always have a product. With a polynomial its exponents decide.
      cases hfy : y.form K with
      | constant d =>
          exact iff_of_true ⟨_, rfl⟩ (Poly.exists_mul_constant _ d)
      | symbol t =>
          refine iff_of_true ?_ (Poly.exists_symbol_mul_symbol s t)
          rcases Monomial.exists_ofSymbol_mulSymbol s t with ⟨m, hm⟩
          exact ⟨_, Outcome.map_eq_ok_iff.2 ⟨m, hm, rfl⟩⟩
      | poly q =>
          exact (hy.of_form hfy).exists_mul_symbol_iff.symm.trans Poly.exists_mul_comm
  | poly p =>
      cases hfy : y.form K with
      | constant d =>
          exact iff_of_true ⟨_, rfl⟩ (Poly.exists_mul_constant p d)
      | symbol t =>
          exact (hx.of_form hfx).exists_mul_symbol_iff.symm
      | poly q =>
          exact Iff.rfl

theorem eq_of_mul_lift (hx : x.Canonical K) (hy : y.Canonical K) {r r' : Poly R}
    (h : x.mul K y = .ok r) (h' : (x.lift K).mul K (y.lift K) = .ok r') : r = r' := by
  apply ((canonical_mul hx hy h).toMvPolynomial_inj (Poly.canonical_mul h')).1
  exact (toMvPolynomial_mul h).trans (Poly.toMvPolynomial_mul h').symm

theorem mul_eq_ok_iff_mul_lift (hx : x.Canonical K) (hy : y.Canonical K) {r : Poly R} :
    x.mul K y = .ok r ↔ (x.lift K).mul K (y.lift K) = .ok r := by
  -- Both paths succeed together, and then their results are equal.
  constructor
  · intro h
    rcases (exists_mul_iff_lift hx hy).1 ⟨r, h⟩ with ⟨r', h'⟩
    exact eq_of_mul_lift hx hy h h' ▸ h'
  · intro h'
    rcases (exists_mul_iff_lift hx hy).2 ⟨r, h'⟩ with ⟨r', h⟩
    exact eq_of_mul_lift hx hy h h' ▸ h

end Agrees

/-- Whatever kinds the operands have, the result is that of the arithmetic of polynomials on what they
lift to, and a product fails exactly if that of the lifted polynomials does. -/
theorem arithmetic_lift {K : CoeffRing R} (hK : K.Lawful) {x y : Operand R} (hx : x.Canonical K)
    (hy : y.Canonical K) :
    x.add K y = (x.lift K).add K (y.lift K) ∧
      x.sub K y = (x.lift K).sub K (y.lift K) ∧
      (∀ r, x.mul K y = .ok r ↔ (x.lift K).mul K (y.lift K) = .ok r) ∧
      x.neg K = (x.lift K).neg K := by
  let _ := hK.toCommRing
  have _ := hK.agrees
  refine ⟨?_, ?_, ?_, ?_⟩
  · exact add_eq_add_lift hx hy
  · exact sub_eq_sub_lift hx hy
  · intro r
    exact mul_eq_ok_iff_mul_lift hx hy
  · exact neg_eq_neg_lift hx

/-- Modulo six: a sum of two kinds, a difference and a product in which everything cancels, a symbol whose
exponent is already the largest one, and a negative. -/
theorem arithmetic_lift_largest_exponent :
    let six : Modulus := ⟨6, by decide⟩
    let K : CoeffRing (Residue six) := (integersMod six).toCoeffRing
    let s : Monomial := .ofSymbol ⟨"x"⟩
    let m : Monomial := Monomial.one.withExponent ⟨"x"⟩ 4294967295
    let x : Operand (Residue six) := .symbol ⟨"x"⟩
    let y : Operand (Residue six) := .poly (.monomial K m (K.ofInt 2))
    let z : Operand (Residue six) := .int 9
    let sum : Poly (Residue six) := .ofTerms K [(s, K.one), (m, K.ofInt 2)]
    let negative : Poly (Residue six) := .monomial K s (K.ofInt 5)
    K.Lawful ∧ x.Canonical K ∧ y.Canonical K ∧ z.Canonical K ∧
      (x.add K y = sum ∧ (x.lift K).add K (y.lift K) = sum) ∧
      (x.sub K x = ∅ ∧ (x.lift K).sub K (x.lift K) = ∅) ∧
      (z.mul K y = .ok ∅ ∧ (z.lift K).mul K (y.lift K) = .ok ∅) ∧
      ((∀ r, x.mul K y ≠ .ok r) ∧ ∀ r, (x.lift K).mul K (y.lift K) ≠ .ok r) ∧
      x.neg K = negative ∧ (x.lift K).neg K = negative := by
  intro six K s m x y z sum negative
  have hK : K.Lawful := lawful_integersMod six
  have hx : x.Canonical K := fun _ h => nomatch h
  have hy : y.Canonical K := canonical_poly_iff.2 (by decide +kernel)
  have hz : z.Canonical K := fun _ h => nomatch h
  rcases arithmetic_lift hK hx hy with ⟨hadd, -, hmul, hneg⟩
  rcases arithmetic_lift hK hx hx with ⟨-, hsub, -, -⟩
  rcases arithmetic_lift hK hz hy with ⟨-, -, hvanish, -⟩
  have hsum : x.add K y = sum := by decide +kernel
  have hcancel : x.sub K x = ∅ := by decide +kernel
  have hzero : z.mul K y = .ok ∅ := by decide +kernel
  have hnegative : x.neg K = negative := by decide +kernel
  have hfail : ∀ r, x.mul K y ≠ .ok r := by
    intro r hr
    have hisOk : (x.mul K y).isOk = false := by decide +kernel
    cases hisOk.symm.trans (congrArg Except.isOk hr)
  exact ⟨hK, hx, hy, hz, ⟨hsum, hadd.symm.trans hsum⟩, ⟨hcancel, hsub.symm.trans hcancel⟩,
    ⟨hzero, (hvanish ∅).1 hzero⟩, ⟨hfail, fun r hr => hfail r ((hmul r).2 hr)⟩, hnegative,
    hneg.symm.trans hnegative⟩

end Operand

end SymbolicPoly
