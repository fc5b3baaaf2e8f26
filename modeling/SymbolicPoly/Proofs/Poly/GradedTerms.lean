import SymbolicPoly.Proofs.Poly.Degree
import SymbolicPoly.Proofs.Poly.Leading

/-!
# Graded terms — the terms from the highest to the lowest

Sorting puts every stored term strictly before all terms with a smaller key
(`pairwise_gradedTerms`). The first term is the one with the leading exponent
(`Canonical.head?_gradedTerms_eq_some_iff`).
-/

namespace SymbolicPoly

namespace Poly

universe u

variable {R : Type u} {p : Poly R} {t : Monomial × R}

theorem isLE_compareGraded_iff {a b : Monomial} :
    (Monomial.compareGraded a b).isLE = true ↔ b.gradedKey ≤ a.gradedKey := by
  rw [Monomial.compareGraded_eq_compare, Ordering.isLE_iff_ne_gt]
  exact compare_le_iff_le

/-- Sorting puts each term before all that have a smaller key. Distinct monomials have distinct keys,
so there are no ties. -/
theorem pairwise_sortTerms {ts : List (Monomial × R)} (h : (ts.map Prod.fst).Nodup) :
    (sortTerms ts).Pairwise fun t u => u.1.gradedKey < t.1.gradedKey := by
  have hsorted : (sortTerms ts).Pairwise fun t u =>
      (Monomial.compareGraded t.1 u.1).isLE = true := by
    refine List.pairwise_mergeSort ?_ ?_ ts
    · intro t u v htu huv
      exact isLE_compareGraded_iff.2
        ((isLE_compareGraded_iff.1 huv).trans (isLE_compareGraded_iff.1 htu))
    · intro t u
      simpa [isLE_compareGraded_iff] using le_total u.1.gradedKey t.1.gradedKey
  have hdistinct : (sortTerms ts).Pairwise fun t u => t.1 ≠ u.1 := by
    refine List.pairwise_map.1 ?_
    exact ((List.mergeSort_perm ts _).map Prod.fst).nodup_iff.2 h
  refine hsorted.imp₂ ?_ hdistinct
  intro t u hle hne
  exact lt_of_le_of_ne (isLE_compareGraded_iff.1 hle) fun h =>
    hne (Monomial.gradedKey_injective h).symm

theorem pairwise_gradedTerms (p : Poly R) :
    p.gradedTerms.Pairwise fun t u => u.1.gradedKey < t.1.gradedKey :=
  pairwise_sortTerms (nodup_keys_toList p)

/-- The first term is the one that no other term comes before. -/
theorem head?_gradedTerms_eq_some_iff :
    p.gradedTerms.head? = some t ↔
      t ∈ p.toList ∧ ∀ u ∈ p.toList, (Monomial.compareGraded t.1 u.1).isLE = true := by
  have hmem : ∀ u, u ∈ p.toList ↔ u ∈ p.gradedTerms := fun u => (gradedTerms_perm p).mem_iff.symm
  simp only [hmem, isLE_compareGraded_iff]
  have hsorted := pairwise_gradedTerms p
  cases hterms : p.gradedTerms with
  | nil =>
      simp
  | cons u us =>
      have hfirst := (List.pairwise_cons.1 (hterms ▸ hsorted)).1
      constructor
      · rintro ⟨⟩
        refine ⟨List.mem_cons_self, ?_⟩
        intro v hv
        rcases List.mem_cons.1 hv with rfl | hv
        · exact le_refl _
        · exact (hfirst v hv).le
      · rintro ⟨ht, hmax⟩
        rcases List.mem_cons.1 ht with rfl | ht
        · rfl
        · -- A term behind the first one is exceeded by it.
          exact absurd (hfirst t ht) (hmax u List.mem_cons_self).not_gt

/-! ## The leading term -/

/-- The exponents in graded order, as a key under which sums stay sums. -/
noncomputable def gradedHom : (Symbol →₀ Nat) →+ DegLex (Symbol →₀ Nat) where
  toFun := toDegLex
  map_zero' := rfl
  map_add' := toDegLex_add

theorem gradedHom_injective : Function.Injective gradedHom :=
  toDegLex_injective

variable [CommRing R] {K : CoeffRing R} [K.Agrees]

theorem coeff_of_mem_toList {m : Monomial} {c : R} (h : (m, c) ∈ p.toList) : p.coeff K m = c := by
  simp [coeff, mem_toList_iff.1 h]

theorem Canonical.head?_gradedTerms_eq_some_iff (hp : p.Canonical K) {m : Monomial} {c : R} :
    p.gradedTerms.head? = some (m, c) ↔
      Leading.IsLeading gradedHom p.toMvPolynomial m.toFinsupp ∧ p.coeff K m = c := by
  have hsupport : ∀ d, d ∈ p.toMvPolynomial.support ↔ ∃ t ∈ p.toList, t.1.toFinsupp = d := by
    intro d
    rw [mem_support_toMvPolynomial_iff (K := K), hp.nonzeroTerms_eq]
  rw [Poly.head?_gradedTerms_eq_some_iff]
  constructor
  · rintro ⟨ht, hmax⟩
    refine ⟨⟨(hsupport _).2 ⟨(m, c), ht, rfl⟩, ?_⟩, coeff_of_mem_toList ht⟩
    intro e he
    rcases (hsupport e).1 he with ⟨u, hu, rfl⟩
    exact isLE_compareGraded_iff.1 (hmax u hu)
  · rintro ⟨hleading, hcoeff⟩
    rcases (hsupport _).1 hleading.mem_support with ⟨t, ht, hkey⟩
    -- The term with the leading exponent is the one in question.
    have hterm : t = (m, c) := by
      have hmonomial : t.1 = m := Monomial.toFinsupp_injective hkey
      refine Prod.ext hmonomial ?_
      rw [← hcoeff, ← hmonomial]
      exact (coeff_of_mem_toList ht).symm
    refine ⟨hterm ▸ ht, ?_⟩
    intro u hu
    exact isLE_compareGraded_iff.2 (hleading.le_key _ ((hsupport _).2 ⟨u, hu, rfl⟩))

end Poly

end SymbolicPoly
