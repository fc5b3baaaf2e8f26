import SymbolicPoly.Proofs.Poly.Degree
import SymbolicPoly.Proofs.Ring.Modular

/-!
# Product overflow — which products fail

A product of polynomials fails exactly if some stored monomial of the one side and some stored monomial
of the other have a symbol whose two exponents add up to more than the largest word. For canonical
polynomials the largest exponents of the symbol decide. Coefficients play no part: neither stored
zeros nor products that vanish hide an overflow.

A product multiplies the pairs of terms one after the other (`mul_eq_mulPairs`). In whatever order
this is done, an overflow is met in all orders or in none, and without one the results are equal
(`mulPairs_eq_ok_iff`). Only which overflow is met first depends on the order.

Sums, differences and negatives multiply no monomials. They cannot fail, and they store nothing at a
monomial at which no argument does.
-/

namespace SymbolicPoly

universe u

variable {R : Type u}

namespace Poly

section Agrees

variable {K : CoeffRing R} {p q r : Poly R}

/-! ## Products in any order -/

/-- The product of each pair in the list, one pair after the other, and all of them collected. -/
def mulPairs (K : CoeffRing R) (pairs : List ((Monomial × R) × (Monomial × R))) :
    Except ExponentOverflow (Poly R) :=
  (pairs.mapM fun t => mulTerm K t.1 t.2).map (ofTerms K)

/-- A product takes each term of the left side in turn, and all terms of the right side with it. -/
theorem mul_eq_mulPairs (p q : Poly R) :
    p.mul K q = mulPairs K (p.toList.product q.toList) := by
  have hrow : ∀ t : Monomial × R,
      (q.toList.map (Prod.mk t)).mapM (fun t => mulTerm K t.1 t.2) = q.toList.mapM (mulTerm K t) := by
    intro t
    rw [List.mapM_map]
    rfl
  simp only [mulPairs, List.product, Outcome.mapM_flatMap, hrow]
  rfl

variable [CommRing R] [K.Agrees]

theorem mulPairs_eq_ok_iff {pairs : List ((Monomial × R) × (Monomial × R))}
    (h : pairs.Perm (p.toList.product q.toList)) :
    mulPairs K pairs = .ok r ↔ p.mul K q = .ok r := by
  -- Each list is a permutation of the other, so it is enough to go in one direction.
  have hperm : ∀ {ps ps' : List ((Monomial × R) × (Monomial × R))}, ps.Perm ps' →
      mulPairs K ps = .ok r → mulPairs K ps' = .ok r := by
    intro ps ps' hps hr
    rcases Outcome.map_eq_ok_iff.1 hr with ⟨us, hus, rfl⟩
    rcases Outcome.exists_mapM_perm hps hus with ⟨us', hus', hperm⟩
    exact Outcome.map_eq_ok_iff.2 ⟨us', hus', ofTerms_perm hperm⟩
  rw [mul_eq_mulPairs]
  exact ⟨hperm h, hperm h.symm⟩

/-! ## When products fail -/

omit [CommRing R] [K.Agrees] in
theorem exists_mul_eq_error_iff :
    (∃ e, p.mul K q = .error e) ↔
      ∃ t ∈ p.toList, ∃ t' ∈ q.toList, ∃ v,
        4294967295 < (t.1.exponent v).toNat + (t'.1.exponent v).toNat := by
  simp only [Outcome.exists_eq_error_iff, exists_mul_eq_ok_iff, Monomial.exists_mul_eq_ok_iff,
    UInt32.size, not_forall, not_lt, Nat.succ_le_iff, exists_prop]

theorem Canonical.exists_mul_eq_error_iff (hp : p.Canonical K) (hq : q.Canonical K) :
    (∃ e, p.mul K q = .error e) ↔
      ∃ v, 4294967295 < (p.degreeIn K v).toNat + (q.degreeIn K v).toNat := by
  simp only [Outcome.exists_eq_error_iff, hp.exists_mul_iff_degreeIn hq, UInt32.size, not_forall,
    not_lt, Nat.succ_le_iff]

/-! ## Sums -/

omit [CommRing R] [K.Agrees] in
theorem coefficient?_add_eq_none {m : Monomial} (hp : p.coefficient? m = none)
    (hq : q.coefficient? m = none) : (p.add K q).coefficient? m = none := by
  unfold add
  split_ifs
  · exact coefficient?_foldl_addCoefficient_eq_none K hp (coefficient?_eq_none_iff.1 hq)
  · exact coefficient?_foldl_addCoefficient_eq_none K hq (coefficient?_eq_none_iff.1 hp)

theorem coefficient?_sub_eq_none {m : Monomial} (hp : p.coefficient? m = none)
    (hq : q.coefficient? m = none) : (p.sub K q).coefficient? m = none := by
  rw [sub_eq_foldl]
  refine coefficient?_foldl_addCoefficient_eq_none K hp ?_
  rw [List.map_map]
  exact coefficient?_eq_none_iff.1 hq

end Agrees

/-- A product fails exactly if the exponents of some symbol in a monomial on each side add up to too
much, whatever the coefficients and the order of the terms are. Sums do not fail. -/
theorem product_overflow_iff {K : CoeffRing R} (hK : K.Lawful) (p q : Poly R) :
    ((∃ e, p.mul K q = .error e) ↔
        ∃ t ∈ p.toList, ∃ t' ∈ q.toList, ∃ v,
          4294967295 < (t.1.exponent v).toNat + (t'.1.exponent v).toNat) ∧
      (p.Canonical K → q.Canonical K →
        ((∃ e, p.mul K q = .error e) ↔
          ∃ v, 4294967295 < (p.degreeIn K v).toNat + (q.degreeIn K v).toNat)) ∧
      (∀ pairs, pairs.Perm (p.toList.product q.toList) →
        ((∃ e, mulPairs K pairs = .error e) ↔ ∃ e, p.mul K q = .error e) ∧
          ∀ r, mulPairs K pairs = .ok r ↔ p.mul K q = .ok r) ∧
      ∀ m, p.coefficient? m = none → (p.neg K).coefficient? m = none ∧
        (q.coefficient? m = none →
          (p.add K q).coefficient? m = none ∧ (p.sub K q).coefficient? m = none) := by
  let _ := hK.toCommRing
  have _ := hK.agrees
  refine ⟨exists_mul_eq_error_iff, ?_, ?_, ?_⟩
  · intro hp hq
    exact hp.exists_mul_eq_error_iff hq
  · intro pairs hpairs
    have hok : ∀ r, mulPairs K pairs = .ok r ↔ p.mul K q = .ok r := fun _ => mulPairs_eq_ok_iff hpairs
    refine ⟨?_, hok⟩
    simp only [Outcome.exists_eq_error_iff, hok]
  · intro m hp
    refine ⟨?_, ?_⟩
    · rw [coefficient?_neg, hp, Option.map_none]
    · intro hq
      exact ⟨coefficient?_add_eq_none hp hq, coefficient?_sub_eq_none hp hq⟩

/-- Modulo four `2 * x ^ 4294967295` times `2 * x` overflows, although the product would vanish. The
other terms do not, and it does not help to take them first. -/
theorem product_overflow_iff_vanishing :
    let four : Modulus := ⟨4, by decide⟩
    let K : CoeffRing (Residue four) := (integersMod four).toCoeffRing
    let x : Symbol := ⟨"x"⟩
    let p : Poly (Residue four) := ofTerms K
      [(.one, K.ofInt 3), (Monomial.one.withExponent x 4294967295, K.ofInt 2)]
    let q : Poly (Residue four) := ofTerms K [(.one, K.ofInt 1), (.ofSymbol x, K.ofInt 2)]
    K.Lawful ∧ p.Canonical K ∧ q.Canonical K ∧ K.mul (K.ofInt 2) (K.ofInt 2) = K.zero ∧
      4294967295 < (p.degreeIn K x).toNat + (q.degreeIn K x).toNat ∧
      (∃ e, p.mul K q = .error e) ∧ (∃ e, mulPairs K (p.toList.product q.toList).reverse = .error e) ∧
      (p.neg K).coefficient? (.ofSymbol x) = none ∧
      (p.add K p).coefficient? (.ofSymbol x) = none := by
  intro four K x p q
  have hK : K.Lawful := lawful_integersMod four
  have hp : p.Canonical K := by decide +kernel
  have hq : q.Canonical K := by decide +kernel
  have hdegree : 4294967295 < (p.degreeIn K x).toNat + (q.degreeIn K x).toNat := by decide +kernel
  have hnone : p.coefficient? (.ofSymbol x) = none := by decide +kernel
  rcases product_overflow_iff hK p q with ⟨-, hcanonical, horder, -⟩
  rcases (product_overflow_iff hK p p).2.2.2 _ hnone with ⟨hneg, hsum⟩
  have herror := (hcanonical hp hq).2 ⟨x, hdegree⟩
  have hreverse := (horder _ (List.reverse_perm _)).1.2 herror
  exact ⟨hK, hp, hq, by decide +kernel, hdegree, herror, hreverse, hneg, (hsum hnone).1⟩

end Poly

end SymbolicPoly
