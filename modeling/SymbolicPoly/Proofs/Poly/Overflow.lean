import SymbolicPoly.Proofs.Monomial.Product
import SymbolicPoly.Proofs.Poly.Canonical

/-!
# Overflow — when a product of polynomials exists

Whether a product fails is decided by the stored monomials alone: it exists exactly if each monomial
of the one side has a product with each monomial of the other (`exists_mul_eq_ok_iff`). Coefficients
play no part, also not those that multiply to zero.
-/

namespace SymbolicPoly

namespace Poly

universe u

variable {R : Type u} {K : CoeffRing R} {p q : Poly R}

theorem exists_mulSymbol_eq_ok_iff {s : Symbol} :
    (∃ r, p.mulSymbol s = .ok r) ↔ ∀ t ∈ p.toList, ∃ n, t.1.mulSymbol s = .ok n := by
  have hrun : (∃ r, p.mulSymbol s = .ok r) ↔ ∃ us, p.toList.mapM (mulTermSymbol s) = .ok us := by
    simp [mulSymbol, Outcome.map_eq_ok_iff]
  refine hrun.trans (Outcome.exists_mapM_eq_ok_iff.trans ?_)
  simp [mulTermSymbol, Outcome.map_eq_ok_iff]

theorem exists_mul_eq_ok_iff :
    (∃ r, p.mul K q = .ok r) ↔
      ∀ t ∈ p.toList, ∀ t' ∈ q.toList, ∃ n, t.1.mul t'.1 = .ok n := by
  have hrun : (∃ r, p.mul K q = .ok r) ↔
      ∃ rows, (p.toList.mapM fun t => q.toList.mapM (mulTerm K t)) = .ok rows := by
    simp [mul, termProducts, Outcome.map_eq_ok_iff]
  refine hrun.trans (Outcome.exists_mapM_eq_ok_iff.trans ?_)
  simp only [Outcome.exists_mapM_eq_ok_iff, mulTerm, Outcome.map_eq_ok_iff]
  simp

theorem exists_mul_comm : (∃ r, p.mul K q = .ok r) ↔ ∃ r, q.mul K p = .ok r := by
  simp only [exists_mul_eq_ok_iff]
  constructor
  · intro h t ht t' ht'
    exact Monomial.exists_mul_comm.1 (h t' ht' t ht)
  · intro h t ht t' ht'
    exact Monomial.exists_mul_comm.1 (h t' ht' t ht)

/-! ## One factor with at most one term -/

theorem fst_eq_of_mem_toList_monomial {m : Monomial} {c : R} {t : Monomial × R}
    (ht : t ∈ (monomial K m c).toList) : t.1 = m := by
  have hstored : (monomial K m c).coefficient? t.1 = some t.2 := mem_toList_iff.1 ht
  rw [coefficient?_monomial] at hstored
  split_ifs at hstored with hzero hm
  exact hm.symm

theorem exists_mul_constant (p : Poly R) (c : R) : ∃ r, p.mul K (constant K c) = .ok r := by
  refine exists_mul_eq_ok_iff.2 ?_
  intro t _ t' ht'
  exact ⟨t.1, (fst_eq_of_mem_toList_monomial ht').symm ▸ t.1.mul_one_eq_ok⟩

theorem exists_symbol_mul_symbol (s s' : Symbol) :
    ∃ r, (symbol K s).mul K (symbol K s') = .ok r := by
  refine exists_mul_eq_ok_iff.2 ?_
  intro t ht t' ht'
  rw [fst_eq_of_mem_toList_monomial ht, fst_eq_of_mem_toList_monomial ht']
  simpa only [Monomial.mul_ofSymbol_eq_ok_iff] using Monomial.exists_ofSymbol_mulSymbol s s'

variable [CommRing R] [K.Agrees] in
/-- In the ring where one is zero the symbol has no term, but `p` has none either. -/
theorem Canonical.exists_mul_symbol_iff (hp : p.Canonical K) {s : Symbol} :
    (∃ r, p.mul K (symbol K s) = .ok r) ↔ ∃ r, p.mulSymbol s = .ok r := by
  simp only [exists_mul_eq_ok_iff, exists_mulSymbol_eq_ok_iff, ← Monomial.mul_ofSymbol_eq_ok_iff]
  constructor
  · intro h t ht
    -- A stored coefficient is not zero, so one is not either and the symbol has its term.
    have hone : (1 : R) ≠ 0 := by
      intro hzero
      have htwo : t.2 = 0 := by
        calc
          t.2 = t.2 * 1 := (mul_one t.2).symm
          _ = 0 := by rw [hzero, mul_zero]
      exact hp.toList_ne_zero t ht htwo
    have hmem : (Monomial.ofSymbol s, (1 : R)) ∈ (symbol K s).toList := by
      simp [mem_toList_iff, symbol, coefficient?_monomial, hone]
    exact h t ht _ hmem
  · intro h t ht t' ht'
    rw [fst_eq_of_mem_toList_monomial ht']
    exact h t ht

end Poly

end SymbolicPoly
