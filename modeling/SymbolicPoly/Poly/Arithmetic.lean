import SymbolicPoly.Poly.Basic

/-!
# Arithmetic — sums, products and powers of polynomials

Sums work key by key: where both sides store a coefficient the two are added and a zero sum is
removed, where one side does it is taken over, a stored zero too. Products multiply every term with
every term and collect the results, without zeros.

Sums, negatives and multiples by a ring element always succeed. Products and powers fail as soon as
two monomials are multiplied whose product has an exponent that is too large, whatever their
coefficients are.
-/

namespace SymbolicPoly

namespace Poly

universe u

variable {R : Type u}

/-! ## Sums -/

/-- Adds `c` to the coefficient stored at `m`. A sum that is zero is removed; where nothing is
stored yet `c` is stored. -/
def addCoefficient (K : CoeffRing R) (p : Poly R) (m : Monomial) (c : R) : Poly R where
  terms := p.terms.alter m fun
    | some d =>
        let sum := K.add d c
        if K.isZero sum then none else some sum
    | none => some c

/-- The sum `p + c * m`. -/
def addTerm (K : CoeffRing R) (p : Poly R) (m : Monomial) (c : R) : Poly R :=
  if K.isZero c then p else addCoefficient K p m c

/-- The sum `p + q`: the terms of the polynomial with fewer of them are added to the other one. -/
def add (K : CoeffRing R) (p q : Poly R) : Poly R :=
  if q.size ≤ p.size then
    q.toList.foldl (fun acc t => addCoefficient K acc t.1 t.2) p
  else
    p.toList.foldl (fun acc t => addCoefficient K acc t.1 t.2) q

def neg (K : CoeffRing R) (p : Poly R) : Poly R where
  terms := p.terms.map fun _ c => K.neg c

/-- The difference `p - q`. -/
def sub (K : CoeffRing R) (p q : Poly R) : Poly R :=
  q.toList.foldl (fun acc t => addCoefficient K acc t.1 (K.neg t.2)) p

/-! ## Products -/

/-- The multiple `c * p`. Multiplying by one leaves the stored terms as they are; any other
multiple drops the coefficients that become zero. -/
def scale (K : CoeffRing R) (p : Poly R) (c : R) : Poly R :=
  if K.isZero c then
    ∅
  else if K.isOne c then
    p
  else
    ⟨p.terms.filterMap fun _ a =>
      let product := K.mul a c
      if K.isZero product then none else some product⟩

/-- The term with one more factor `s`. -/
def mulTermSymbol (s : Symbol) (t : Monomial × R) : Except ExponentOverflow (Monomial × R) :=
  (t.1.mulSymbol s).map fun m => (m, t.2)

/-- The product `s * p`. Every monomial gets one more factor `s`, and its coefficient stays, also if
it is zero. -/
def mulSymbol (p : Poly R) (s : Symbol) : Except ExponentOverflow (Poly R) :=
  (p.toList.mapM (mulTermSymbol s)).map ofStoredTerms

/-- The product of two terms. -/
def mulTerm (K : CoeffRing R) (t t' : Monomial × R) : Except ExponentOverflow (Monomial × R) :=
  (t.1.mul t'.1).map fun m => (m, K.mul t.2 t'.2)

/-- The products of each term of `ts` with each term of `ts'`, not yet collected. -/
def termProducts (K : CoeffRing R) (ts ts' : List (Monomial × R)) :
    Except ExponentOverflow (List (Monomial × R)) :=
  (ts.mapM fun t => ts'.mapM (mulTerm K t)).map List.flatten

/-- The product `p * q`. -/
def mul (K : CoeffRing R) (p q : Poly R) : Except ExponentOverflow (Poly R) :=
  (termProducts K p.toList q.toList).map (ofTerms K)

/-- The power `p ^ n` by repeated squaring. The power zero is one, also of the zero polynomial. -/
def pow (K : CoeffRing R) (p : Poly R) (n : Nat) : Except ExponentOverflow (Poly R) :=
  repeatOpM (mul K) (one K) p n

end Poly

end SymbolicPoly
