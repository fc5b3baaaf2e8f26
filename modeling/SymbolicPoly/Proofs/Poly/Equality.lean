import SymbolicPoly.Proofs.Poly.Canonical
import SymbolicPoly.Proofs.Ring.Modular

/-!
# Equality — polynomials that store the same terms

`sameTerms` looks up each term of one polynomial in the other and compares how many there are. It does
not go through the terms of the other one, and need not: distinct terms that are as many leave no room
for another one (`eq_of_toList_subset`). So it decides equality (`sameTerms_iff`), with stored zeros
counted as terms.

Canonical polynomials are equal as soon as their difference is the zero polynomial
(`Canonical.isEmpty_sub_iff`). With stored zeros this fails.
-/

namespace SymbolicPoly

namespace Poly

universe u

variable {R : Type u} {p q : Poly R}

theorem length_toList (p : Poly R) : p.toList.length = p.size :=
  Std.ExtTreeMap.length_toList

theorem eq_iff_coefficient? : p = q ↔ ∀ m, p.coefficient? m = q.coefficient? m := by
  constructor
  · rintro rfl m
    rfl
  · exact ext_coefficient?

/-- A polynomial that stores all terms of another one, and not more of them, is the same. -/
theorem eq_of_toList_subset (h : p.toList ⊆ q.toList) (hsize : q.size ≤ p.size) : p = q := by
  have hlength : q.toList.length ≤ p.toList.length := by
    rw [length_toList, length_toList]
    exact hsize
  have hperm : p.toList.Perm q.toList :=
    (List.subperm_of_subset (lists_toList p).nodup h).perm_of_length_le hlength
  have hlists : q.Lists p.toList := (lists_toList q).of_perm hperm
  exact ext_coefficient? ((lists_toList p).coefficient?_eq hlists)

section SameTerms

variable [DecidableEq R]

theorem sameTerms_iff_subset :
    p.sameTerms q = true ↔ p.size = q.size ∧ p.toList ⊆ q.toList := by
  rw [sameTerms, Bool.and_eq_true, beq_iff_eq, List.all_eq_true, List.subset_def]
  refine and_congr_right fun _ => forall₂_congr fun t _ => ?_
  exact beq_iff_eq.trans mem_toList_iff.symm

theorem sameTerms_iff : p.sameTerms q = true ↔ p = q := by
  rw [sameTerms_iff_subset]
  constructor
  · rintro ⟨hsize, hsubset⟩
    exact eq_of_toList_subset hsubset hsize.ge
  · rintro rfl
    exact ⟨rfl, List.Subset.refl _⟩

theorem sameTerms_equivalence : Equivalence fun p q : Poly R => p.sameTerms q = true where
  refl _ := sameTerms_iff.2 rfl
  symm h := sameTerms_iff.2 (sameTerms_iff.1 h).symm
  trans h h' := sameTerms_iff.2 ((sameTerms_iff.1 h).trans (sameTerms_iff.1 h'))

end SameTerms

/-! ## Canonical polynomials -/

section Agrees

variable [CommRing R] {K : CoeffRing R} [K.Agrees]

theorem Canonical.eq_iff_coeff (hp : p.Canonical K) (hq : q.Canonical K) :
    p = q ↔ ∀ m, p.coeff K m = q.coeff K m := by
  constructor
  · rintro rfl m
    rfl
  · exact hp.ext_coeff hq

theorem Canonical.isEmpty_sub_iff (hp : p.Canonical K) (hq : q.Canonical K) :
    (p.sub K q).isEmpty = true ↔ p = q := by
  rw [(hp.sub hq).isEmpty_iff, hp.eq_iff_coeff hq]
  exact forall_congr' fun m => by rw [coeff_sub, sub_eq_zero]

end Agrees

/-- Comparing sizes and looking up the terms of one side decides whether both sides store the same
coefficients at the same monomials. For canonical polynomials this is to say that the difference has no
terms, or that no monomial tells them apart. -/
theorem sameTerms_decides_equality [DecidableEq R] :
    (∀ p q : Poly R, p.sameTerms q = (p == q)) ∧
      (∀ p q : Poly R,
        p.sameTerms q = true ↔ ∀ m, p.coefficient? m = q.coefficient? m) ∧
      (Equivalence fun p q : Poly R => p.sameTerms q = true) ∧
      ∀ K : CoeffRing R, K.Lawful → ∀ p q : Poly R, p.Canonical K → q.Canonical K →
        (p.sameTerms q = true ↔ (p.sub K q).isEmpty = true) ∧
          (p.sameTerms q = true ↔ ∀ m, p.coeff K m = q.coeff K m) := by
  refine ⟨?_, ?_, sameTerms_equivalence, ?_⟩
  · intro p q
    exact Bool.eq_iff_iff.2 (sameTerms_iff.trans beq_iff_eq.symm)
  · intro p q
    exact sameTerms_iff.trans eq_iff_coefficient?
  · intro K hK p q hp hq
    let _ := hK.toCommRing
    have _ := hK.agrees
    exact ⟨sameTerms_iff.trans (hp.isEmpty_sub_iff hq).symm,
      sameTerms_iff.trans (hp.eq_iff_coeff hq)⟩

/-- Modulo four `2 * x + y` and `y - 2 * x` are the same. With a zero stored at `z` instead of `y` it is
not enough that the coefficients agree. -/
theorem sameTerms_decides_equality_modulo_four :
    let four : Modulus := ⟨4, by decide⟩
    let K : CoeffRing (Residue four) := (integersMod four).toCoeffRing
    let x : Monomial := .ofSymbol ⟨"x"⟩
    let y : Monomial := .ofSymbol ⟨"y"⟩
    let p : Poly (Residue four) := ofTerms K [(x, K.ofInt 2), (y, K.one)]
    let q : Poly (Residue four) := ofTerms K [(y, K.one), (x, K.ofInt (-2))]
    let r : Poly (Residue four) := monomial K x (K.ofInt 2)
    let stored : Poly (Residue four) := ofStoredTerms [(x, K.ofInt 2), (.ofSymbol ⟨"z"⟩, K.zero)]
    K.Lawful ∧ p.Canonical K ∧ q.Canonical K ∧ r.Canonical K ∧
      p.sameTerms q = true ∧ (∀ m, p.coeff K m = q.coeff K m) ∧
      p.sameTerms stored = false ∧ r.sameTerms stored = false ∧
      (p.sub K r).isEmpty = false ∧ ¬ ∀ m, p.coeff K m = r.coeff K m := by
  intro four K x y p q r stored
  have hK : K.Lawful := lawful_integersMod four
  have hp : p.Canonical K := by decide +kernel
  have hq : q.Canonical K := by decide +kernel
  have hr : r.Canonical K := by decide +kernel
  rcases sameTerms_decides_equality (R := Residue four) with ⟨-, -, -, hcanonical⟩
  have hsame : p.sameTerms q = true :=
    (hcanonical K hK p q hp hq).1.2 (by decide +kernel)
  have hdiffer : ¬ p.sameTerms r = true := by decide +kernel
  refine ⟨hK, hp, hq, hr, hsame, (hcanonical K hK p q hp hq).2.1 hsame, by decide +kernel,
    by decide +kernel, ?_, mt (hcanonical K hK p r hp hr).2.2 hdiffer⟩
  exact Bool.eq_false_iff.2 (mt (hcanonical K hK p r hp hr).1.2 hdiffer)

end Poly

end SymbolicPoly
