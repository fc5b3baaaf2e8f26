import SymbolicPoly.Proofs.Operand.Arithmetic
import SymbolicPoly.Proofs.Ring.Instances

/-!
# Construction — polynomials made by checked constructors and operations

`Built K p` says that `p` comes from finitely many constructors and operations that know the ring.
Such a polynomial is canonical, whatever raw tables and coefficients went in (`Built.canonical`). It
follows that it is zero only if it has no terms, also in rings where nonzero elements multiply to
zero or where one is zero.

Zeros enter by the unchecked constructors alone. Products, powers, `substitute` and `compose` remove
them again (`canonical_results`).
-/

namespace SymbolicPoly

namespace Poly

universe u

variable {R : Type u} {K : CoeffRing R}

/-- The polynomials over `K` that can be made without an unchecked constructor. -/
inductive Built (K : CoeffRing R) : Poly R → Prop
  | ofTableMap (terms : Std.ExtTreeMap ExponentTable R compareTables) :
      Built K (ofTableMap K terms)
  | ofTableTerms (ts : List (ExponentTable × R)) : Built K (ofTableTerms K ts)
  | ofTerms (ts : List (Monomial × R)) : Built K (ofTerms K ts)
  | ofSymbols (ts : List (Symbol × R)) : Built K (ofSymbols K ts)
  | zero : Built K zero
  | one : Built K (one K)
  | constant (c : R) : Built K (constant K c)
  | number (n : Int) : Built K (number K n)
  | symbol (s : Symbol) : Built K (symbol K s)
  | monomial (m : Monomial) (c : R) : Built K (monomial K m c)
  | ofElement [RingElement R] (htest : ∀ c : R, RingElement.isZero c = K.isZero c) (c : R) :
      Built K (ofElement c)
  | lift {x : Operand R} (hx : ∀ p, x = .poly p → Built K p) : Built K (x.lift K)
  | add {x y : Operand R} (hx : ∀ p, x = .poly p → Built K p)
      (hy : ∀ p, y = .poly p → Built K p) : Built K (x.add K y)
  | sub {x y : Operand R} (hx : ∀ p, x = .poly p → Built K p)
      (hy : ∀ p, y = .poly p → Built K p) : Built K (x.sub K y)
  | neg {x : Operand R} (hx : ∀ p, x = .poly p → Built K p) : Built K (x.neg K)
  | mul {x y : Operand R} {r : Poly R} (hx : ∀ p, x = .poly p → Built K p)
      (hy : ∀ p, y = .poly p → Built K p) (h : x.mul K y = .ok r) : Built K r
  | pow {p r : Poly R} {n : Nat} (hp : Built K p) (h : p.pow K n = .ok r) : Built K r
  | substitute {p : Poly R} (hp : Built K p) (values : Assignment R) :
      Built K (p.substitute K values)
  | compose {p r : Poly R} {values : Assignment (Poly R)} (hp : Built K p)
      (hvalues : ∀ (s : Symbol) (q : Poly R), values[s]? = some q → Built K q)
      (h : p.compose K values = .ok r) : Built K r

section Agrees

variable [CommRing R] [K.Agrees] {p : Poly R}

theorem canonical_ofElement [RingElement R] (htest : ∀ c : R, RingElement.isZero c = K.isZero c)
    (c : R) : (ofElement c).Canonical K := by
  have hconstant : ofElement c = constant K c := by
    simp only [ofElement, htest]
    rfl
  exact hconstant ▸ canonical_monomial .one c

/-- Every constructor makes a canonical polynomial, and every operation keeps canonical ones. -/
theorem Built.canonical (h : Built K p) : p.Canonical K := by
  induction h with
  | ofTableMap terms =>
      exact canonical_ofTerms _
  | ofTableTerms ts =>
      exact canonical_ofTerms _
  | ofTerms ts =>
      exact canonical_ofTerms ts
  | ofSymbols ts =>
      exact canonical_ofTerms _
  | zero =>
      exact canonical_empty
  | one =>
      exact canonical_one
  | constant c =>
      exact canonical_monomial .one c
  | number n =>
      exact canonical_monomial .one (K.ofInt n)
  | symbol s =>
      exact canonical_monomial (.ofSymbol s) K.one
  | monomial m c =>
      exact canonical_monomial m c
  | ofElement htest c =>
      exact canonical_ofElement htest c
  | lift _ ihx =>
      exact Operand.canonical_lift ihx
  | add _ _ ihx ihy =>
      exact Operand.canonical_add ihx ihy
  | sub _ _ ihx ihy =>
      exact Operand.canonical_sub ihx ihy
  | neg _ ihx =>
      exact Operand.canonical_neg ihx
  | mul _ _ h ihx ihy =>
      exact Operand.canonical_mul ihx ihy h
  | pow _ h _ =>
      exact canonical_pow h
  | substitute _ values _ =>
      exact canonical_substitute _ values
  | compose _ _ h _ _ =>
      exact canonical_compose h

end Agrees

/-- What is built is canonical, and what multiplies terms is canonical for all arguments. -/
theorem canonical_results (hK : K.Lawful) :
    (∀ p, Built K p → p.Canonical K ∧ (p.isEmpty = true ↔ ∀ m, p.coeff K m = K.zero)) ∧
      (∀ p q r, mul K p q = .ok r → r.Canonical K) ∧
      (∀ p n r, pow K p n = .ok r → r.Canonical K) ∧
      (∀ p values, (substitute K p values).Canonical K) ∧
      ∀ p values r, compose K p values = .ok r → r.Canonical K := by
  let _ := hK.toCommRing
  have _ := hK.agrees
  refine ⟨?_, ?_, ?_, ?_, ?_⟩
  · intro p hp
    have hcanonical := hp.canonical
    exact ⟨hcanonical, hcanonical.isEmpty_iff⟩
  · intro p q r h
    exact canonical_mul h
  · intro p n r h
    exact canonical_pow h
  · intro p values
    exact canonical_substitute p values
  · intro p values r h
    exact canonical_compose h

/-- `x - x` has no terms left, and `(0 * x + 2) * (0 * x + 2)` none that is zero. -/
theorem canonical_results_vanishing :
    integers.Lawful ∧
      let x : Operand Int := .symbol ⟨"x"⟩
      let p : Poly Int := .ofStoredTerms [(.ofSymbol ⟨"x"⟩, 0), (.one, 2)]
      (∀ m, (x.sub integers x).coeff integers m = integers.zero) ∧
        ∃ r, p.mul integers p = .ok r ∧ r.Canonical integers := by
  refine ⟨lawful_integers, ?_⟩
  intro x p
  have hresults := canonical_results lawful_integers
  have hbuilt : Built integers (x.sub integers x) := .sub (fun _ h => nomatch h) (fun _ h => nomatch h)
  have hempty : (x.sub integers x).isEmpty = true := by decide +kernel
  have hok : (p.mul integers p).isOk = true := by decide +kernel
  rcases Outcome.exists_eq_ok_of_isOk hok with ⟨r, hr⟩
  exact ⟨(hresults.1 _ hbuilt).2.1 hempty, r, hr, hresults.2.1 p p r hr⟩

end Poly

end SymbolicPoly
