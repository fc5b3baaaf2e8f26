import Mathlib.Tactic.Ring
import SymbolicPoly.Poly.Operand
import SymbolicPoly.Proofs.Poly.Canonical
import SymbolicPoly.Proofs.Poly.MvPolynomial

/-!
# Operand arithmetic — every path computes in the same ring

An operand stands for the polynomial `lift`. Whatever kinds of operands meet, the result of an
operation denotes the sum, difference, negative or product of the two lifted polynomials in
`MvPolynomial Symbol R`. If the polynomials among the operands are canonical, so is the result.
-/

namespace SymbolicPoly

namespace Operand

universe u

variable {R : Type u}

/-- If the operand is a polynomial, it is a canonical one. -/
def Canonical (K : CoeffRing R) (x : Operand R) : Prop :=
  ∀ p, x = .poly p → p.Canonical K

theorem canonical_poly_iff {K : CoeffRing R} {p : Poly R} :
    (poly p).Canonical K ↔ p.Canonical K := by
  constructor
  · intro h
    exact h p rfl
  · intro hp q hq
    cases hq
    exact hp

/-- The polynomial for which an operand stands when its integers have been mapped into the ring. -/
def Form.lift (K : CoeffRing R) : Form R → Poly R
  | .constant c => .constant K c
  | .symbol s => .symbol K s
  | .poly p => p

theorem lift_eq_form_lift (K : CoeffRing R) (x : Operand R) : x.lift K = (x.form K).lift K := by
  unfold lift
  cases x.form K <;> rfl

theorem Canonical.of_form {K : CoeffRing R} {x : Operand R} (hx : x.Canonical K) {p : Poly R}
    (h : x.form K = .poly p) : p.Canonical K := by
  cases x with
  | poly q =>
      cases h
      exact hx p rfl
  | _ =>
      cases h

variable [CommRing R] {K : CoeffRing R} [K.Agrees] {x y : Operand R} {q : Poly R}

/-! ## Denotation of the results -/

theorem toMvPolynomial_add (x y : Operand R) :
    (x.add K y).toMvPolynomial = (x.lift K).toMvPolynomial + (y.lift K).toMvPolynomial := by
  simp only [lift_eq_form_lift, add]
  cases x.form K <;> cases y.form K <;> simp [Form.lift, MvPolynomial.X, add_comm]

theorem toMvPolynomial_neg (x : Operand R) :
    (x.neg K).toMvPolynomial = -(x.lift K).toMvPolynomial := by
  simp only [lift_eq_form_lift, neg]
  cases x.form K <;> simp [Form.lift, MvPolynomial.X]

theorem toMvPolynomial_sub (x y : Operand R) :
    (x.sub K y).toMvPolynomial = (x.lift K).toMvPolynomial - (y.lift K).toMvPolynomial := by
  simp only [lift_eq_form_lift, sub]
  cases x.form K <;> cases y.form K <;> simp [Form.lift, MvPolynomial.X] <;> ring

theorem toMvPolynomial_mul (h : x.mul K y = .ok q) :
    q.toMvPolynomial = (x.lift K).toMvPolynomial * (y.lift K).toMvPolynomial := by
  simp only [lift_eq_form_lift, mul] at h ⊢
  generalize x.form K = a at h ⊢
  generalize y.form K = b at h ⊢
  cases a with
  | constant c =>
      cases b with
      | constant d =>
          cases h
          simp [Form.lift]
      | symbol t =>
          cases h
          simp [Form.lift, MvPolynomial.X, MvPolynomial.C_mul_monomial]
      | poly q' =>
          cases h
          simp [Form.lift, mul_comm]
  | symbol s =>
      cases b with
      | constant d =>
          cases h
          simp [Form.lift, MvPolynomial.X, mul_comm, MvPolynomial.C_mul_monomial]
      | symbol t =>
          rcases Outcome.map_eq_ok_iff.1 h with ⟨m, hm, rfl⟩
          have hexp := Monomial.mulSymbol_eq_ok_iff_toFinsupp.1 hm
          simp [Form.lift, hexp, MvPolynomial.X, MvPolynomial.monomial_mul]
      | poly q' =>
          simp [Form.lift, Poly.toMvPolynomial_mulSymbol h, mul_comm]
  | poly p =>
      cases b with
      | constant d =>
          cases h
          simp [Form.lift]
      | symbol t =>
          simp [Form.lift, Poly.toMvPolynomial_mulSymbol h]
      | poly q' =>
          exact Poly.toMvPolynomial_mul h

/-! ## Canonical results -/

theorem canonical_lift (hx : x.Canonical K) : (x.lift K).Canonical K := by
  rw [lift_eq_form_lift]
  cases hform : x.form K with
  | constant c =>
      exact Poly.canonical_monomial .one c
  | symbol s =>
      exact Poly.canonical_monomial (.ofSymbol s) K.one
  | poly p =>
      exact hx.of_form hform

theorem canonical_add (hx : x.Canonical K) (hy : y.Canonical K) : (x.add K y).Canonical K := by
  simp only [add]
  cases hfx : x.form K with
  | constant c =>
      cases hfy : y.form K with
      | constant d =>
          exact Poly.canonical_monomial .one (K.add c d)
      | symbol t =>
          exact Poly.canonical_ofTerms _
      | poly q =>
          exact (hy.of_form hfy).addTerm .one c
  | symbol s =>
      cases hfy : y.form K with
      | constant d =>
          exact Poly.canonical_ofTerms _
      | symbol t =>
          exact Poly.canonical_ofTerms _
      | poly q =>
          exact (hy.of_form hfy).addTerm (.ofSymbol s) K.one
  | poly p =>
      cases hfy : y.form K with
      | constant d =>
          exact (hx.of_form hfx).addTerm .one d
      | symbol t =>
          exact (hx.of_form hfx).addTerm (.ofSymbol t) K.one
      | poly q =>
          exact (hx.of_form hfx).add (hy.of_form hfy)

theorem canonical_sub (hx : x.Canonical K) (hy : y.Canonical K) : (x.sub K y).Canonical K := by
  simp only [sub]
  cases hfx : x.form K with
  | constant c =>
      cases hfy : y.form K with
      | constant d =>
          exact Poly.canonical_monomial .one (K.sub c d)
      | symbol t =>
          exact Poly.canonical_ofTerms _
      | poly q =>
          exact (hy.of_form hfy).neg.addTerm .one c
  | symbol s =>
      cases hfy : y.form K with
      | constant d =>
          exact Poly.canonical_ofTerms _
      | symbol t =>
          exact Poly.canonical_ofTerms _
      | poly q =>
          exact (hy.of_form hfy).neg.addTerm (.ofSymbol s) K.one
  | poly p =>
      cases hfy : y.form K with
      | constant d =>
          exact (hx.of_form hfx).addTerm .one (K.neg d)
      | symbol t =>
          exact (hx.of_form hfx).addTerm (.ofSymbol t) (K.neg K.one)
      | poly q =>
          exact (hx.of_form hfx).sub (hy.of_form hfy)

theorem canonical_neg (hx : x.Canonical K) : (x.neg K).Canonical K := by
  simp only [neg]
  cases hfx : x.form K with
  | constant c =>
      exact Poly.canonical_monomial .one (K.neg c)
  | symbol s =>
      exact Poly.canonical_monomial (.ofSymbol s) (K.neg K.one)
  | poly p =>
      exact (hx.of_form hfx).neg

theorem canonical_mul (hx : x.Canonical K) (hy : y.Canonical K) (h : x.mul K y = .ok q) :
    q.Canonical K := by
  simp only [mul] at h
  cases hfx : x.form K with
  | constant c =>
      cases hfy : y.form K with
      | constant d =>
          simp only [hfx, hfy] at h
          cases h
          exact Poly.canonical_monomial .one (K.mul c d)
      | symbol t =>
          simp only [hfx, hfy] at h
          cases h
          exact Poly.canonical_monomial (.ofSymbol t) c
      | poly q' =>
          simp only [hfx, hfy] at h
          cases h
          exact (hy.of_form hfy).scale c
  | symbol s =>
      cases hfy : y.form K with
      | constant d =>
          simp only [hfx, hfy] at h
          cases h
          exact Poly.canonical_monomial (.ofSymbol s) d
      | symbol t =>
          simp only [hfx, hfy] at h
          rcases Outcome.map_eq_ok_iff.1 h with ⟨m, -, rfl⟩
          exact Poly.canonical_monomial m K.one
      | poly q' =>
          simp only [hfx, hfy] at h
          exact (hy.of_form hfy).mulSymbol h
  | poly p =>
      cases hfy : y.form K with
      | constant d =>
          simp only [hfx, hfy] at h
          cases h
          exact (hx.of_form hfx).scale d
      | symbol t =>
          simp only [hfx, hfy] at h
          exact (hx.of_form hfx).mulSymbol h
      | poly q' =>
          simp only [hfx, hfy] at h
          exact Poly.canonical_mul h

end Operand

end SymbolicPoly
