import SymbolicPoly.Poly.Basic
import Std.Data.ExtTreeSet

/-!
# Queries — degrees and variables of a polynomial

All queries look only at terms whose coefficient is not zero, so stored zeros do not show. The zero
polynomial has degree -1 and is constant.
-/

namespace SymbolicPoly

namespace Poly

universe u

variable {R : Type u}

/-- The terms whose coefficient is not zero. -/
def nonzeroTerms (K : CoeffRing R) (p : Poly R) : List (Monomial × R) :=
  p.toList.filter fun t => !K.isZero t.2

/-! ## Degrees -/

/-- The largest total degree of a term, and -1 if there is none. -/
def degree (K : CoeffRing R) (p : Poly R) : Int :=
  (p.nonzeroTerms K).foldl (fun d t => max d t.1.totalDegree) (-1)

/-- Raises the entry of a symbol to at least the exponent of the factor. -/
def noteFactor (degrees : ExponentTable) (f : Symbol × UInt32) : ExponentTable :=
  degrees.alter f.1 fun d => some (max (d.getD 0) f.2)

/-- The largest exponent of each symbol that occurs. -/
def degrees (K : CoeffRing R) (p : Poly R) : ExponentTable :=
  (p.nonzeroTerms K).foldl (fun acc t => t.1.factors.foldl noteFactor acc) ∅

/-- The largest exponent of `s`, zero if it does not occur. -/
def degreeIn (K : CoeffRing R) (p : Poly R) (s : Symbol) : UInt32 :=
  (p.nonzeroTerms K).foldl (fun d t => max d (t.1.exponent s)) 0

/-- The largest degree of a term in the given symbols alone, other symbols being ignored. -/
def degreeInSet (K : CoeffRing R) (p : Poly R) (symbols : Std.ExtTreeSet Symbol) : Nat :=
  (p.nonzeroTerms K).foldl (fun d t => max d (t.1.restrict symbols.contains).totalDegree) 0

/-! ## Variables -/

/-- The symbols that occur. -/
def vars (K : CoeffRing R) (p : Poly R) : Std.ExtTreeSet Symbol :=
  (p.nonzeroTerms K).foldl (fun acc t => acc.insertMany t.1.vars) ∅

def varCount (K : CoeffRing R) (p : Poly R) : Nat :=
  (p.vars K).size

/-! ## Constants -/

/-- Whether no term has a variable. -/
def isConstant (K : CoeffRing R) (p : Poly R) : Bool :=
  (p.nonzeroTerms K).all fun t => t.1.isOne

def isNonzeroConstant (K : CoeffRing R) (p : Poly R) : Bool :=
  p.isConstant K && p.constantTerm?.any fun c => !K.isZero c

/-- The value of a constant polynomial. -/
def constantValue? (K : CoeffRing R) (p : Poly R) : Option R :=
  if p.isConstant K then some (p.constantTerm?.getD K.zero) else none

end Poly

end SymbolicPoly
