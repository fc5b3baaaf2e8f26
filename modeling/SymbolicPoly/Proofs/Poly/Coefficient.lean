import Mathlib.Algebra.BigOperators.Group.List.Basic
import SymbolicPoly.Proofs.Poly.Lookup
import SymbolicPoly.Proofs.Ring.Commutative

/-!
# Coefficient — the coefficients of sums and multiples

The coefficient of a monomial is what is stored at it, and zero where nothing is stored. In this view
removed and stored zeros look alike, so each operation has one equation whatever path it takes:
`coeff_add`, `coeff_sub`, `coeff_neg`, `coeff_addTerm`, `coeff_scale`, `coeff_ofTerms`.

A list of terms has coefficients too (`listedCoeff`): those of equal monomials add up. The terms of a
polynomial list its own coefficients (`coeff_eq_listedCoeff_toList`).
-/

namespace SymbolicPoly

universe u

variable {R : Type u}

namespace Poly

/-- The coefficient of `m`, zero if none is stored. -/
def coeff (K : CoeffRing R) (p : Poly R) (m : Monomial) : R :=
  (p.coefficient? m).getD K.zero

variable [CommRing R]

/-- The sum of the coefficients that a list of terms gives to `m`. -/
def listedCoeff (ts : List (Monomial × R)) (m : Monomial) : R :=
  (ts.map fun t => if t.1 = m then t.2 else 0).sum

@[simp]
theorem listedCoeff_nil (m : Monomial) : listedCoeff ([] : List (Monomial × R)) m = 0 :=
  rfl

@[simp]
theorem listedCoeff_cons (t : Monomial × R) (ts : List (Monomial × R)) (m : Monomial) :
    listedCoeff (t :: ts) m = (if t.1 = m then t.2 else 0) + listedCoeff ts m := by
  simp [listedCoeff]

theorem listedCoeff_eq_zero {ts : List (Monomial × R)} {m : Monomial}
    (h : m ∉ ts.map Prod.fst) : listedCoeff ts m = 0 := by
  induction ts with
  | nil =>
      rfl
  | cons t ts ih =>
      have hsplit : m ≠ t.1 ∧ m ∉ ts.map Prod.fst := by
        simpa only [List.map_cons, List.mem_cons, not_or] using h
      simp [Ne.symm hsplit.1, ih hsplit.2]

theorem listedCoeff_of_mem {ts : List (Monomial × R)} {m : Monomial} {c : R}
    (hnodup : (ts.map Prod.fst).Nodup) (h : (m, c) ∈ ts) : listedCoeff ts m = c := by
  induction ts with
  | nil =>
      cases h
  | cons t ts ih =>
      have hcons : t.1 ∉ ts.map Prod.fst ∧ (ts.map Prod.fst).Nodup := by
        simpa only [List.map_cons, List.nodup_cons] using hnodup
      rcases List.mem_cons.1 h with rfl | htail
      · simp [listedCoeff_eq_zero hcons.1]
      · have hne : t.1 ≠ m := by
          rintro rfl
          exact hcons.1 (List.mem_map.2 ⟨_, htail, rfl⟩)
        simp [hne, ih hcons.2 htail]

/-- The order of the terms does not matter. -/
theorem listedCoeff_perm {ts us : List (Monomial × R)} (h : ts.Perm us) (m : Monomial) :
    listedCoeff ts m = listedCoeff us m :=
  (h.map _).sum_eq

theorem listedCoeff_map_neg (ts : List (Monomial × R)) (m : Monomial) :
    listedCoeff (ts.map fun t => (t.1, -t.2)) m = -listedCoeff ts m := by
  induction ts with
  | nil =>
      simp
  | cons t ts ih =>
      by_cases h : t.1 = m
      · simp [h, ih, add_comm]
      · simp [h, ih]

variable {K : CoeffRing R} [K.Agrees]

theorem coeff_eq_listedCoeff_toList (p : Poly R) (m : Monomial) :
    p.coeff K m = listedCoeff p.toList m := by
  cases hm : p.coefficient? m with
  | some c =>
      simp [coeff, hm, listedCoeff_of_mem (nodup_keys_toList p) (mem_toList_iff.2 hm)]
  | none =>
      have hnot : m ∉ p.toList.map Prod.fst := by
        intro h
        rcases List.mem_map.1 h with ⟨t, ht, rfl⟩
        cases hm.symm.trans (mem_toList_iff.1 (show (t.1, t.2) ∈ p.toList from ht))
      simp [coeff, hm, listedCoeff_eq_zero hnot]

@[simp]
theorem coeff_empty (m : Monomial) : (∅ : Poly R).coeff K m = 0 := by
  simp [coeff]

/-! ## Sums -/

theorem coeff_addCoefficient (p : Poly R) (m : Monomial) (c : R) (m' : Monomial) :
    (p.addCoefficient K m c).coeff K m' = p.coeff K m' + if m = m' then c else 0 := by
  simp only [coeff, coefficient?_addCoefficient]
  by_cases hm : m = m'
  · subst hm
    cases p.coefficient? m with
    | none =>
        simp
    | some d =>
        -- A sum that is zero is removed, and zero is what its place is then read as.
        by_cases hzero : d + c = 0
        · simp [hzero]
        · simp [hzero]
  · simp [hm]

theorem coeff_foldl_addCoefficient (ts : List (Monomial × R)) (p : Poly R) (m : Monomial) :
    (ts.foldl (fun acc t => addCoefficient K acc t.1 t.2) p).coeff K m =
      p.coeff K m + listedCoeff ts m := by
  induction ts generalizing p with
  | nil =>
      simp
  | cons t ts ih =>
      simp [ih, coeff_addCoefficient, add_assoc]

theorem coeff_add (p q : Poly R) (m : Monomial) :
    (p.add K q).coeff K m = p.coeff K m + q.coeff K m := by
  -- Either side may be the one to which the terms of the other are added.
  unfold add
  split_ifs
  · rw [coeff_foldl_addCoefficient, coeff_eq_listedCoeff_toList q]
  · rw [coeff_foldl_addCoefficient, coeff_eq_listedCoeff_toList p, add_comm]

theorem coeff_addTerm (p : Poly R) (m : Monomial) (c : R) (m' : Monomial) :
    (p.addTerm K m c).coeff K m' = p.coeff K m' + if m = m' then c else 0 := by
  unfold addTerm
  by_cases hzero : K.isZero c
  · -- Adding zero is skipped, which leaves every coefficient as it should be.
    have hc : c = 0 := (CoeffRing.Agrees.isZero_iff c).1 hzero
    simp only [hzero, if_true]
    simp [hc]
  · simp only [hzero]
    exact coeff_addCoefficient p m c m'

theorem coeff_neg (p : Poly R) (m : Monomial) : (p.neg K).coeff K m = -p.coeff K m := by
  cases h : p.coefficient? m with
  | none =>
      simp [coeff, h]
  | some c =>
      simp [coeff, h]

theorem sub_eq_foldl (p q : Poly R) :
    p.sub K q =
      (q.toList.map fun t => (t.1, -t.2)).foldl (fun acc t => addCoefficient K acc t.1 t.2) p := by
  simp [sub, List.foldl_map]

theorem coeff_sub (p q : Poly R) (m : Monomial) :
    (p.sub K q).coeff K m = p.coeff K m - q.coeff K m := by
  rw [sub_eq_foldl, coeff_foldl_addCoefficient, listedCoeff_map_neg,
    ← coeff_eq_listedCoeff_toList (K := K) q, sub_eq_add_neg]

/-! ## Multiples and constructors -/

theorem coeff_scale (p : Poly R) (c : R) (m : Monomial) :
    (p.scale K c).coeff K m = p.coeff K m * c := by
  simp only [coeff, coefficient?_scale]
  split_ifs with hzero hone
  · simp [(CoeffRing.Agrees.isZero_iff c).1 hzero]
  · simp [(CoeffRing.Agrees.isOne_iff c).1 hone]
  · cases p.coefficient? m with
    | none =>
        simp
    | some a =>
        -- The product can be zero although neither factor is.
        by_cases hproduct : a * c = 0
        · simp [hproduct]
        · simp [hproduct]

theorem coeff_monomial (m : Monomial) (c : R) (m' : Monomial) :
    (monomial K m c).coeff K m' = if m = m' then c else 0 := by
  simp only [coeff, coefficient?_monomial]
  by_cases hzero : c = 0
  · simp [hzero]
  · by_cases hm : m = m'
    · simp [hzero, hm]
    · simp [hzero, hm]

theorem coeff_constant (c : R) (m : Monomial) :
    (constant K c).coeff K m = if .one = m then c else 0 :=
  coeff_monomial .one c m

theorem coeff_symbol (s : Symbol) (m : Monomial) :
    (symbol K s).coeff K m = if .ofSymbol s = m then 1 else 0 := by
  simp [symbol, coeff_monomial]

theorem coeff_collectTerm (p : Poly R) (m : Monomial) (c : R) (m' : Monomial) :
    (Poly.mk (collectTerm K p.terms m c)).coeff K m' = p.coeff K m' + if m = m' then c else 0 := by
  simp only [coeff, coefficient?_collectTerm]
  by_cases hm : m = m'
  · subst hm
    cases p.coefficient? m with
    | none =>
        simp
    | some d =>
        simp
  · simp [hm]

theorem coeff_foldl_collectTerm (ts : List (Monomial × R)) (p : Poly R) (m : Monomial) :
    (Poly.mk (ts.foldl (fun acc t => collectTerm K acc t.1 t.2) p.terms)).coeff K m =
      p.coeff K m + listedCoeff ts m := by
  induction ts generalizing p with
  | nil =>
      simp
  | cons t ts ih =>
      have hrest := ih (Poly.mk (collectTerm K p.terms t.1 t.2))
      simpa [coeff_collectTerm, add_assoc] using hrest

theorem coeff_collect (ts : List (Monomial × R)) (m : Monomial) :
    (collect K ts).coeff K m = listedCoeff ts m := by
  have hfold : (collect K ts).coeff K m = (∅ : Poly R).coeff K m + listedCoeff ts m :=
    coeff_foldl_collectTerm ts ∅ m
  simpa using hfold

theorem coeff_ofTerms (ts : List (Monomial × R)) (m : Monomial) :
    (ofTerms K ts).coeff K m = listedCoeff ts m := by
  rw [← coeff_collect (K := K) ts m]
  simp only [coeff, coefficient?_ofTerms]
  cases (collect K ts).coefficient? m with
  | none =>
      rfl
  | some c =>
      -- A sum is dropped only if it is zero, which is what its place is read as.
      by_cases hzero : c = 0
      · simp [hzero, Option.filter]
      · simp [hzero, Option.filter]

end Poly

end SymbolicPoly
