import SymbolicPoly.Poly.Arithmetic

/-!
# Substitution — putting values in the place of symbols

An assignment gives values to finitely many symbols. Three functions use one.

* `substitute` takes values in the ring. Symbols without a value stay.
* `compose` takes polynomials as values, all put in at once: a symbol that a value brings in
  is not replaced again.
* `evaluate` takes values in the ring and must find one for every symbol that occurs, also in a term
  whose coefficient is zero. The terms are gone through in graded order and the factors of a term in
  the order of their symbols, so the first symbol without a value is determined.
-/

namespace SymbolicPoly

universe u

/-- Values for finitely many symbols. -/
abbrev Assignment (α : Type u) : Type u :=
  Std.ExtTreeMap Symbol α

/-- The factors of `m` to which `values` assigns nothing. -/
def Monomial.unassigned {α : Type u} (m : Monomial) (values : Assignment α) : Monomial :=
  m.restrict fun s => !values.contains s

namespace Poly

variable {R : Type u}

/-! ## Ring elements -/

/-- One term with its assigned symbols replaced by their values. -/
def substituteTerm (K : CoeffRing R) (values : Assignment R) (t : Monomial × R) : Monomial × R :=
  (t.1.unassigned values,
    t.1.factors.foldl
      (fun c f =>
        match values[f.1]? with
        | some x => K.mul c (K.pow x f.2.toNat)
        | none => c)
      t.2)

def substitute (K : CoeffRing R) (p : Poly R) (values : Assignment R) : Poly R :=
  ofTerms K (p.toList.map (substituteTerm K values))

/-! ## Polynomials -/

/-- The product of the powers by which the assigned factors are replaced. -/
def imageOfFactors (K : CoeffRing R) (values : Assignment (Poly R))
    (fs : List (Symbol × UInt32)) : Except ExponentOverflow (Poly R) :=
  fs.foldlM
    (fun acc f =>
      match values[f.1]? with
      | some q => do mul K acc (← pow K q f.2.toNat)
      | none => pure acc)
    (one K)

/-- One term with its assigned symbols replaced by polynomials. -/
def composeTerm (K : CoeffRing R) (values : Assignment (Poly R)) (t : Monomial × R) :
    Except ExponentOverflow (Poly R) := do
  let image ← imageOfFactors K values t.1.factors
  mul K image (monomial K (t.1.unassigned values) t.2)

def compose (K : CoeffRing R) (p : Poly R) (values : Assignment (Poly R)) :
    Except ExponentOverflow (Poly R) :=
  p.toList.foldlM (fun acc t => do return add K acc (← composeTerm K values t)) zero

/-! ## Evaluation -/

/-- The value of one term at a point. -/
def evaluateTerm (K : CoeffRing R) (point : Assignment R) (t : Monomial × R) :
    Except UnboundVariable R :=
  t.1.factors.foldlM
    (fun value f =>
      match point[f.1]? with
      | some x => .ok (K.mul value (K.pow x f.2.toNat))
      | none => .error ⟨f.1⟩)
    t.2

/-- The value of a polynomial at a point. -/
def evaluate (K : CoeffRing R) (p : Poly R) (point : Assignment R) : Except UnboundVariable R :=
  p.gradedTerms.foldlM (fun sum t => do return K.add sum (← evaluateTerm K point t)) K.zero

end Poly

end SymbolicPoly
