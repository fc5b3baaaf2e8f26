import SymbolicPoly.Monomial.Order
import SymbolicPoly.Ring.Basic

/-!
# Poly — polynomials as finite maps from monomials to coefficients

A polynomial in symbols over a ring stores a coefficient for each of finitely many monomials. Two
polynomials are equal exactly when they store equal coefficients at the same monomials.

A polynomial is *canonical* when no stored coefficient is zero. The constructors that take the ring
as an argument make canonical polynomials. `Poly.mk` and `ofStoredTerms` know no ring and store what
they are given, zeros too. Every operation of the library also says what it does then.

* `coefficient?` is the view through which the operations are described.
* `gradedTerms` lists the terms in graded order, highest first.
-/

namespace SymbolicPoly

universe u

structure Poly (R : Type u) where
  terms : Std.ExtTreeMap Monomial R

namespace Poly

variable {R : Type u}

/-! ## Views -/

/-- The stored coefficient of `m`. -/
def coefficient? (p : Poly R) (m : Monomial) : Option R :=
  p.terms[m]?

theorem ext_coefficient? {p q : Poly R} (h : ∀ m, p.coefficient? m = q.coefficient? m) : p = q := by
  cases p
  cases q
  exact congrArg Poly.mk (Std.ExtTreeMap.ext_getElem? h)

/-- The stored coefficient of the monomial without factors. -/
def constantTerm? (p : Poly R) : Option R :=
  p.coefficient? .one

/-- The terms, each once, in the key order of their monomials. -/
def toList (p : Poly R) : List (Monomial × R) :=
  p.terms.toList

theorem toList_inj {p q : Poly R} : p.toList = q.toList ↔ p = q := by
  constructor
  · intro h
    cases p
    cases q
    exact congrArg Poly.mk (Std.ExtTreeMap.toList_inj.1 h)
  · rintro rfl
    rfl

instance [DecidableEq R] : DecidableEq (Poly R) :=
  fun _ _ => decidable_of_iff _ toList_inj

/-- Sorts terms by the graded order of their monomials, highest first. -/
def sortTerms (ts : List (Monomial × R)) : List (Monomial × R) :=
  ts.mergeSort (fun t t' => (Monomial.compareGraded t.1 t'.1).isLE)

def gradedTerms (p : Poly R) : List (Monomial × R) :=
  sortTerms p.toList

/-- The number of stored terms. -/
def size (p : Poly R) : Nat :=
  p.terms.size

def isEmpty (p : Poly R) : Bool :=
  p.terms.isEmpty

/-- Whether `q` stores as many terms as `p`, and each term of `p` among them. Two references to one
polynomial need not be compared term by term. There are no references here, and none are missed: the terms
of a polynomial are always those of itself (`sameTerms_equivalence`). -/
def sameTerms [DecidableEq R] (p q : Poly R) : Bool :=
  p.size == q.size && p.toList.all (fun t => q.coefficient? t.1 == some t.2)

/-! ## The zero polynomial -/

instance : EmptyCollection (Poly R) where
  emptyCollection := ⟨∅⟩

instance : Inhabited (Poly R) where
  default := ∅

/-- The zero polynomial: no term is stored. -/
def zero : Poly R :=
  ∅

/-- Stores the terms as they come; of terms with equal monomials the last is kept. -/
def ofStoredTerms (ts : List (Monomial × R)) : Poly R where
  terms := .ofList ts

/-! ## Constructors that make canonical polynomials -/

/-- Adds a coefficient to what is stored at `m`, also if the sum is zero. -/
def collectTerm (K : CoeffRing R) (terms : Std.ExtTreeMap Monomial R) (m : Monomial) (c : R) :
    Std.ExtTreeMap Monomial R :=
  terms.alter m fun
    | some d => some (K.add d c)
    | none => some c

/-- The sum of the terms: coefficients of equal monomials are added up, and zero sums dropped. -/
def ofTerms (K : CoeffRing R) (ts : List (Monomial × R)) : Poly R where
  terms := (ts.foldl (fun acc t => collectTerm K acc t.1 t.2) ∅).filter fun _ c => !K.isZero c

/-- The sum of terms whose monomials are given as raw tables of exponents. -/
def ofTableTerms (K : CoeffRing R) (ts : List (ExponentTable × R)) : Poly R :=
  ofTerms K (ts.map fun t => (.ofTable t.1, t.2))

/-- Raw tables compare as the lists of their entries. -/
def compareTables (t t' : ExponentTable) : Ordering :=
  Monomial.compareLists t.toList t'.toList

instance : Std.TransCmp compareTables where
  eq_swap {t t'} := @Std.OrientedCmp.eq_swap _ Monomial.compareLists _ t.toList t'.toList
  isLE_trans {t t' t''} :=
    @Std.TransCmp.isLE_trans _ Monomial.compareLists _ t.toList t'.toList t''.toList

/-- The sum of the terms of a map whose keys are raw tables. Keys that differ only in zero
exponents are one monomial. -/
def ofTableMap (K : CoeffRing R) (terms : Std.ExtTreeMap ExponentTable R compareTables) : Poly R :=
  ofTableTerms K terms.toList

/-- The sum of multiples of symbols. -/
def ofSymbols (K : CoeffRing R) (ts : List (Symbol × R)) : Poly R :=
  ofTerms K (ts.map fun t => (.ofSymbol t.1, t.2))

/-- The polynomial `c * m`. -/
def monomial (K : CoeffRing R) (m : Monomial) (c : R) : Poly R :=
  if K.isZero c then ∅ else ⟨(∅ : Std.ExtTreeMap Monomial R).insert m c⟩

def constant (K : CoeffRing R) (c : R) : Poly R :=
  monomial K .one c

/-- The constant polynomial one. Without terms in a ring where one is zero. -/
def one (K : CoeffRing R) : Poly R :=
  constant K K.one

/-- The constant polynomial of an integer. -/
def number (K : CoeffRing R) (n : Int) : Poly R :=
  constant K (K.ofInt n)

def symbol (K : CoeffRing R) (s : Symbol) : Poly R :=
  monomial K (.ofSymbol s) K.one

/-- The constant polynomial of an element whose type carries the ring. -/
def ofElement [RingElement R] (c : R) : Poly R :=
  if RingElement.isZero c then ∅ else ⟨(∅ : Std.ExtTreeMap Monomial R).insert .one c⟩

end Poly

end SymbolicPoly
