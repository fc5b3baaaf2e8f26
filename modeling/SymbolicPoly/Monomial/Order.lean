import SymbolicPoly.Monomial.Basic

/-!
# Monomial order — two ways to sort monomials

* `compare` is the order of the factor lists: lexicographic by `(symbol, exponent)`, and a list
  comes before its proper extensions. It keys the terms of a polynomial.
* `compareGraded` is the order in which terms are written and evaluated: higher total degree
  first, and among equal degrees the higher exponent of the first symbol that tells the two apart,
  so that `x^2` comes before `x*y` and `x*y` before `y^2`.
-/

namespace SymbolicPoly

namespace Monomial

/-- Factors compare by symbol, then by exponent. -/
def compareFactors : Symbol × UInt32 → Symbol × UInt32 → Ordering :=
  compareLex (compareOn Prod.fst) (compareOn Prod.snd)

instance : Std.TransCmp compareFactors :=
  inferInstanceAs (Std.TransCmp (compareLex (compareOn Prod.fst) (compareOn Prod.snd)))

instance : Std.LawfulEqCmp compareFactors where
  eq_of_compare {f g} h := by
    obtain ⟨h₁, h₂⟩ := Ordering.then_eq_eq.1 h
    exact Prod.ext (Std.LawfulEqCmp.eq_of_compare h₁) (Std.LawfulEqCmp.eq_of_compare h₂)

/-- The lexicographic order of factor lists. -/
abbrev compareLists : List (Symbol × UInt32) → List (Symbol × UInt32) → Ordering :=
  List.compareLex compareFactors

instance : Ord Monomial where
  compare a b := compareLists a.factors b.factors

theorem compare_def (a b : Monomial) : compare a b = compareLists a.factors b.factors :=
  rfl

instance : Std.TransOrd Monomial where
  eq_swap {a b} := @Std.OrientedCmp.eq_swap _ compareLists _ a.factors b.factors
  isLE_trans {a b c} := @Std.TransCmp.isLE_trans _ compareLists _ a.factors b.factors c.factors

theorem ext_factors {a b : Monomial} (h : a.factors = b.factors) : a = b := by
  cases a
  cases b
  cases h
  rfl

instance : Std.LawfulEqOrd Monomial where
  compare_self {a} := @Std.ReflCmp.compare_self _ compareLists _ a.factors
  eq_of_compare h := ext_factors (Std.LawfulEqCmp.eq_of_compare h)

/-! ## The graded order -/

/-- Compares factor lists symbol by symbol: the earlier symbol first, then the higher exponent,
and a list after its proper extensions. -/
def compareDescending : List (Symbol × UInt32) → List (Symbol × UInt32) → Ordering
  | [], [] => .eq
  | [], _ :: _ => .gt
  | _ :: _, [] => .lt
  | f :: fs, g :: gs =>
      ((compare f.1 g.1).then (compare g.2 f.2)).then (compareDescending fs gs)

/-- Higher total degree first, then `compareDescending`. -/
def compareGraded (a b : Monomial) : Ordering :=
  (compare b.totalDegree a.totalDegree).then (compareDescending a.factors b.factors)

/-- Sorts ascending by the order of the factor lists. -/
def sort (ms : List Monomial) : List Monomial :=
  ms.mergeSort (fun a b => (compare a b).isLE)

/-- Sorts ascending by the graded order. -/
def sortGraded (ms : List Monomial) : List Monomial :=
  ms.mergeSort (fun a b => (compareGraded a b).isLE)

end Monomial

end SymbolicPoly
