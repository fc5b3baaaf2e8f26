import Mathlib.Algebra.MvPolynomial.Variables
import SymbolicPoly.Poly.Queries
import SymbolicPoly.Proofs.Poly.MvPolynomial

/-!
# Variables — the symbols that occur

The variables of a polynomial are the symbols of its monomials with a nonzero coefficient
(`mem_vars_iff`). They are the variables that the polynomial has in `MvPolynomial Symbol R`
(`mem_vars_toMvPolynomial_iff`). In a canonical polynomial every stored monomial counts.
-/

namespace SymbolicPoly

namespace Poly

universe u

variable {R : Type u} {K : CoeffRing R} {p : Poly R} {s : Symbol}

theorem mem_foldl_insertMany {ts : List (Monomial × R)} {acc : Std.ExtTreeSet Symbol} :
    s ∈ ts.foldl (fun acc t => acc.insertMany t.1.vars) acc ↔
      s ∈ acc ∨ ∃ t ∈ ts, s ∈ t.1.vars := by
  induction ts generalizing acc with
  | nil =>
      simp
  | cons t ts ih =>
      simp [ih, or_assoc]

theorem mem_vars_iff_nonzeroTerms : s ∈ p.vars K ↔ ∃ t ∈ p.nonzeroTerms K, s ∈ t.1.vars := by
  have hfold : s ∈ p.vars K ↔ s ∈ (∅ : Std.ExtTreeSet Symbol) ∨
      ∃ t ∈ p.nonzeroTerms K, s ∈ t.1.vars := mem_foldl_insertMany
  simpa using hfold

variable [CommRing R] [K.Agrees]

theorem mem_nonzeroTerms_iff {t : Monomial × R} :
    t ∈ p.nonzeroTerms K ↔ t ∈ p.toList ∧ t.2 ≠ 0 := by
  simp [nonzeroTerms]

theorem mem_vars_iff : s ∈ p.vars K ↔ ∃ t ∈ p.toList, t.2 ≠ 0 ∧ s ∈ t.1.vars := by
  simp only [mem_vars_iff_nonzeroTerms, mem_nonzeroTerms_iff, and_assoc]

theorem Canonical.mem_vars_iff (hp : p.Canonical K) :
    s ∈ p.vars K ↔ ∃ t ∈ p.toList, s ∈ t.1.vars := by
  rw [Poly.mem_vars_iff]
  constructor
  · rintro ⟨t, ht, -, hs⟩
    exact ⟨t, ht, hs⟩
  · rintro ⟨t, ht, hs⟩
    exact ⟨t, ht, hp.toList_ne_zero t ht, hs⟩

/-! ## The support in the ring of Mathlib -/

omit [K.Agrees] in
theorem exists_toFinsupp_of_coeff_ne_zero {d : Symbol →₀ Nat}
    (h : p.toMvPolynomial.coeff d ≠ 0) : ∃ m : Monomial, m.toFinsupp = d := by
  by_contra hnone
  exact h (coeff_termSum_eq_zero p.toList (not_exists.1 hnone))

theorem coeff_ne_zero_iff {m : Monomial} :
    p.coeff K m ≠ 0 ↔ ∃ t ∈ p.toList, t.2 ≠ 0 ∧ t.1 = m := by
  constructor
  · intro h
    cases hm : p.coefficient? m with
    | none =>
        simp [coeff, hm] at h
    | some c =>
        refine ⟨(m, c), mem_toList_iff.2 hm, ?_, rfl⟩
        simpa [coeff, hm] using h
  · rintro ⟨t, ht, hne, rfl⟩
    have hstored : p.coefficient? t.1 = some t.2 := mem_toList_iff.1 ht
    simpa [coeff, hstored] using hne

/-- The exponents with a nonzero coefficient are those of the stored monomials that have one. -/
theorem mem_support_toMvPolynomial_iff {d : Symbol →₀ Nat} :
    d ∈ p.toMvPolynomial.support ↔ ∃ t ∈ p.nonzeroTerms K, t.1.toFinsupp = d := by
  rw [MvPolynomial.mem_support_iff]
  constructor
  · intro hd
    rcases exists_toFinsupp_of_coeff_ne_zero hd with ⟨m, rfl⟩
    rw [coeff_toMvPolynomial (K := K)] at hd
    rcases coeff_ne_zero_iff.1 hd with ⟨t, ht, hne, rfl⟩
    exact ⟨t, mem_nonzeroTerms_iff.2 ⟨ht, hne⟩, rfl⟩
  · rintro ⟨t, ht, rfl⟩
    rw [coeff_toMvPolynomial (K := K)]
    rcases mem_nonzeroTerms_iff.1 ht with ⟨hmem, hne⟩
    exact coeff_ne_zero_iff.2 ⟨t, hmem, hne, rfl⟩

theorem mem_vars_toMvPolynomial_iff : s ∈ p.toMvPolynomial.vars ↔ s ∈ p.vars K := by
  rw [MvPolynomial.mem_vars_iff_mem_support, mem_vars_iff]
  simp only [mem_support_toMvPolynomial_iff (K := K), mem_nonzeroTerms_iff]
  constructor
  · rintro ⟨-, ⟨t, ⟨ht, hne⟩, rfl⟩, hs⟩
    exact ⟨t, ht, hne, List.mem_toFinset.1 hs⟩
  · rintro ⟨t, ht, hne, hs⟩
    exact ⟨_, ⟨t, ⟨ht, hne⟩, rfl⟩, List.mem_toFinset.2 hs⟩

end Poly

end SymbolicPoly
