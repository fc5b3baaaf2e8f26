import SymbolicPoly.Proofs.Poly.Canonical
import SymbolicPoly.Proofs.Ring.Modular

/-!
# Collection — polynomials from lists of terms

`ofTableTerms` clears its keys of zero exponents, adds up the coefficients of equal monomials in the
order of the list and drops the sums that are zero in the end. What is stored depends only on the sum
at each monomial (`coefficient?_ofTerms_eq_some_iff`), also if a sum has been zero in between.

Lists with the same sums therefore give the same polynomial (`ofTerms_eq_iff`): lists in another
order, with zero exponents in the keys, or with zero terms. Joining two lists adds their polynomials
(`ofTerms_append`), and collecting its own terms gives a polynomial back exactly if it is canonical
(`ofTerms_toList_eq_iff`).
-/

namespace SymbolicPoly

universe u

variable {R : Type u}

/-- The tables give each symbol the same exponent: an entry that only one of them has is zero. -/
def ExponentTable.SamePowers (t u : ExponentTable) : Prop :=
  ∀ s : Symbol, t[s]?.getD 0 = u[s]?.getD 0

theorem Monomial.ofTable_eq_iff {t : ExponentTable} {m : Monomial} :
    ofTable t = m ↔ ∀ s : Symbol, m.exponent s = t[s]?.getD 0 := by
  constructor
  · rintro rfl s
    exact exponent_ofTable t s
  · intro h
    refine ext_exponent fun s => ?_
    rw [exponent_ofTable, h s]

theorem Monomial.ofTable_eq_ofTable_iff {t u : ExponentTable} :
    ofTable t = ofTable u ↔ t.SamePowers u := by
  simp only [ofTable_eq_iff, exponent_ofTable, ExponentTable.SamePowers, eq_comm]

namespace Poly

section Agrees

variable [CommRing R] {K : CoeffRing R} [K.Agrees] {p : Poly R}

/-! ## Sums in a list -/

theorem listedCoeff_eq_sum_filter (ts : List (Monomial × R)) (m : Monomial) :
    listedCoeff ts m = ((ts.filter fun t => t.1 = m).map Prod.snd).sum := by
  induction ts with
  | nil =>
      rfl
  | cons t ts ih =>
      by_cases hm : t.1 = m
      · simp [hm, ih]
      · simp [hm, ih]

theorem listedCoeff_append (ts us : List (Monomial × R)) (m : Monomial) :
    listedCoeff (ts ++ us) m = listedCoeff ts m + listedCoeff us m := by
  simp [listedCoeff]

theorem listedCoeff_of_forall_eq_zero {ts : List (Monomial × R)} (h : ∀ t ∈ ts, t.2 = 0)
    (m : Monomial) : listedCoeff ts m = 0 := by
  refine List.sum_eq_zero fun c hc => ?_
  rcases List.mem_map.1 hc with ⟨t, ht, rfl⟩
  rw [h t ht, ite_self]

/-! ## What is stored -/

/-- Only the sum counts, and not what the sums of the first terms have been. -/
theorem coefficient?_ofTerms_eq_some_iff {ts : List (Monomial × R)} {m : Monomial} {c : R} :
    (ofTerms K ts).coefficient? m = some c ↔ c = listedCoeff ts m ∧ c ≠ 0 := by
  rw [(canonical_ofTerms ts).coefficient?_eq_some_iff, coeff_ofTerms]

theorem ofTerms_append (ts us : List (Monomial × R)) :
    ofTerms K (ts ++ us) = (ofTerms K ts).add K (ofTerms K us) := by
  refine (canonical_ofTerms _).ext_coeff ((canonical_ofTerms ts).add (canonical_ofTerms us)) ?_
  intro m
  rw [coeff_add, coeff_ofTerms, coeff_ofTerms, coeff_ofTerms, listedCoeff_append]

theorem ofTerms_append_of_forall_eq_zero (ts : List (Monomial × R)) {us : List (Monomial × R)}
    (h : ∀ t ∈ us, t.2 = 0) : ofTerms K (ts ++ us) = ofTerms K ts := by
  refine ofTerms_eq_iff.2 fun m => ?_
  rw [listedCoeff_append, listedCoeff_of_forall_eq_zero h, add_zero]

/-- Collecting the terms of a polynomial keeps its coefficients. -/
theorem Lists.coeff_ofTerms {ts : List (Monomial × R)} (h : p.Lists ts) (m : Monomial) :
    (ofTerms K ts).coeff K m = p.coeff K m := by
  rw [Poly.coeff_ofTerms, listedCoeff_perm (lists_iff_perm.1 h),
    ← coeff_eq_listedCoeff_toList (K := K)]

/-- Stored zeros are not stored again. -/
theorem ofTerms_toList_eq_iff : ofTerms K p.toList = p ↔ p.Canonical K := by
  constructor
  · intro h
    exact h ▸ canonical_ofTerms p.toList
  · intro hp
    exact (canonical_ofTerms p.toList).ext_coeff hp (lists_toList p).coeff_ofTerms

end Agrees

/-! ## Raw tables -/

variable {K : CoeffRing R}

theorem ofTableTerms_congr {ts us : List (ExponentTable × R)}
    (h : List.Forall₂ (fun t u => t.1.SamePowers u.1 ∧ t.2 = u.2) ts us) :
    ofTableTerms K ts = ofTableTerms K us := by
  refine congrArg (ofTerms K) ?_
  induction h with
  | nil =>
      rfl
  | cons hhead _ ih =>
      rw [List.map_cons, List.map_cons, Monomial.ofTable_eq_ofTable_iff.2 hhead.1, hhead.2, ih]

/-- A polynomial made from a list of terms stores the sum at each monomial, unless it is zero. Nothing
else about the list matters. -/
theorem collects_sums (hK : K.Lawful) :
    (∀ (t : ExponentTable) m,
      Monomial.ofTable t = m ↔ ∀ s : Symbol, m.exponent s = t[s]?.getD 0) ∧
      (∀ (ts : List (ExponentTable × R)) m c, (ofTableTerms K ts).coefficient? m = some c ↔
        c = K.sum ((ts.filter fun t => Monomial.ofTable t.1 = m).map Prod.snd) ∧ c ≠ K.zero) ∧
      (∀ ts us : List (ExponentTable × R), ts.Perm us → ofTableTerms K ts = ofTableTerms K us) ∧
      (∀ (terms : Std.ExtTreeMap ExponentTable R compareTables) us,
        us.Perm terms.toList → ofTableMap K terms = ofTableTerms K us) ∧
      (∀ ts us : List (ExponentTable × R),
        List.Forall₂ (fun t u => t.1.SamePowers u.1 ∧ t.2 = u.2) ts us →
          ofTableTerms K ts = ofTableTerms K us) ∧
      (∀ ts zeros us : List (ExponentTable × R), us.Perm (ts ++ zeros) →
        (∀ t ∈ zeros, t.2 = K.zero) → ofTableTerms K us = ofTableTerms K ts) ∧
      (∀ ts us : List (ExponentTable × R),
        ofTableTerms K (ts ++ us) = (ofTableTerms K ts).add K (ofTableTerms K us)) ∧
      ∀ (p : Poly R) us, us.Perm p.toList → (ofTerms K us = p ↔ p.Canonical K) := by
  let _ := hK.toCommRing
  have _ := hK.agrees
  have hperm : ∀ {ts us : List (ExponentTable × R)}, ts.Perm us →
      ofTableTerms K ts = ofTableTerms K us := fun h => ofTerms_perm (h.map _)
  refine ⟨fun t m => Monomial.ofTable_eq_iff, ?_, fun ts us => hperm, ?_,
    fun ts us => ofTableTerms_congr, ?_, ?_, ?_⟩
  · intro ts m c
    rw [CoeffRing.sum_eq, CoeffRing.Agrees.zero_eq]
    refine coefficient?_ofTerms_eq_some_iff.trans ?_
    rw [listedCoeff_eq_sum_filter, List.filter_map, List.map_map]
    rfl
  · intro terms us h
    exact hperm h.symm
  · intro ts zeros us h hzeros
    rw [hperm h, ofTableTerms, List.map_append, ofTerms_append_of_forall_eq_zero]
    · rfl
    · intro t ht
      rcases List.mem_map.1 ht with ⟨z, hz, rfl⟩
      exact hzeros z hz
  · intro ts us
    rw [ofTableTerms, List.map_append, ofTerms_append]
    rfl
  · intro p us h
    rw [ofTerms_perm h]
    exact ofTerms_toList_eq_iff

/-- Modulo four the coefficients of `x` are `2 + 2 + 3`, which passes through zero, and the constant
terms cancel. -/
theorem collects_sums_modulo_four :
    let four : Modulus := ⟨4, by decide⟩
    let K : CoeffRing (Residue four) := (integersMod four).toCoeffRing
    let x : Symbol := ⟨"x"⟩
    let y : Symbol := ⟨"y"⟩
    let z : Symbol := ⟨"z"⟩
    let constant : ExponentTable := ∅
    let linear : ExponentTable := constant.insert x 1
    let ts : List (ExponentTable × Residue four) :=
      [(linear, K.ofInt 2), (constant, K.ofInt 1), (linear.insert y 0, K.ofInt 2),
        (constant.insert y 0, K.ofInt 3), (linear.insert z 0, K.ofInt 3)]
    let padded := ts.map fun t => (t.1.insert z 0, t.2)
    let zero : ExponentTable × Residue four := (constant.insert z 7, K.ofInt 0)
    let terms : Std.ExtTreeMap ExponentTable (Residue four) compareTables :=
      .ofList ts compareTables
    let p : Poly (Residue four) := .ofStoredTerms [(.ofSymbol y, K.ofInt 0)]
    K.Lawful ∧ (ofTableTerms K ts).coefficient? (.ofSymbol x) = some (K.ofInt 3) ∧
      (∀ c, (ofTableTerms K ts).coefficient? .one ≠ some c) ∧
      ofTableTerms K ts = ofTableTerms K ts.reverse ∧
      ofTableMap K terms = ofTableTerms K terms.toList.reverse ∧
      ofTableTerms K ts = ofTableTerms K padded ∧
      ofTableTerms K (zero :: ts) = ofTableTerms K ts ∧
      ofTerms K p.toList.reverse ≠ p := by
  intro four K x y z constant linear ts padded zero terms p
  have hK : K.Lawful := lawful_integersMod four
  rcases collects_sums hK with ⟨-, hsum, hperm, hmap, hpadded, hzero, -, hself⟩
  have hsame : ∀ t ∈ ts, Monomial.ofTable t.1 = Monomial.ofTable (t.1.insert z 0) := by decide +kernel
  have hcancel : K.sum ((ts.filter fun t => Monomial.ofTable t.1 = .one).map Prod.snd) = K.zero := by
    decide +kernel
  have hstored : ¬ p.Canonical K := by decide +kernel
  refine ⟨hK, (hsum ts _ _).2 (by decide +kernel), ?_, hperm _ _ ts.reverse_perm.symm,
    hmap _ _ terms.toList.reverse_perm, hpadded _ _ ?_, ?_, ?_⟩
  · intro c hc
    rcases (hsum ts .one c).1 hc with ⟨heq, hne⟩
    exact hne (heq.trans hcancel)
  · refine List.forall₂_map_right_iff.2 (List.forall₂_same.2 fun t ht => ⟨?_, rfl⟩)
    exact Monomial.ofTable_eq_ofTable_iff.1 (hsame t ht)
  · exact hzero ts [zero] _ (List.perm_append_singleton _ _).symm (by decide +kernel)
  · exact fun h => hstored ((hself p _ p.toList.reverse_perm).1 h)

end Poly

end SymbolicPoly
