import Mathlib.Data.Finsupp.MonomialOrder.DegLex
import Mathlib.Data.String.Basic
import SymbolicPoly.Monomial.Order
import SymbolicPoly.Proofs.Monomial.Factorization

/-!
# Graded order — the order of terms as Mathlib's degree-lexicographic order

`Monomial.compareGraded` compares total degrees, and then factor lists from the left. On monomials this
is the order that Mathlib puts on `DegLex (Symbol →₀ Nat)`, turned around: highest first
(`compareGraded_eq_compare`). So it is a linear order, and sums of exponents respect it.

The factor lists are compared without a look at the symbols that are missing from one of them. What
carries the proof is that a missing symbol has exponent zero, so that the first place where two lists
differ is the first symbol at which the exponents do.
-/

namespace SymbolicPoly

/-! ## The order of symbols -/

/-- Symbols are ordered as their names are. -/
instance : LinearOrder Symbol where
  toOrd := Symbol.instOrd
  toDecidableEq := inferInstance
  le s t := s.name ≤ t.name
  lt s t := s.name < t.name
  toDecidableLE s t := inferInstanceAs (Decidable (s.name ≤ t.name))
  toDecidableLT s t := inferInstanceAs (Decidable (s.name < t.name))
  le_refl s := le_refl s.name
  le_trans s t u := le_trans (a := s.name) (b := t.name) (c := u.name)
  lt_iff_le_not_ge s t := lt_iff_le_not_ge (a := s.name) (b := t.name)
  le_antisymm s t hst hts := by
    cases s
    cases t
    exact congrArg Symbol.mk (le_antisymm hst hts)
  le_total s t := le_total s.name t.name
  compare_eq_compareOfLessAndEq s t := by
    have heq : s = t ↔ s.name = t.name := by
      cases s
      cases t
      exact Symbol.mk.injEq _ _ ▸ Iff.rfl
    rw [Symbol.compare_def, LinearOrder.compare_eq_compareOfLessAndEq s.name t.name]
    simp only [compareOfLessAndEq, heq]

namespace Monomial

/-! ## Sums over the factors -/

theorem sum_toFinsupp {M : Type*} [AddCommMonoid M] (m : Monomial) (h : Symbol → Nat → M) :
    m.toFinsupp.sum h = (m.factors.map fun f => h f.1 f.2.toNat).sum :=
  congrArg Multiplicative.toAdd
    (m.prod_toFinsupp fun s e => (Multiplicative.ofAdd (h s e) : Multiplicative M))

theorem degree_toFinsupp (m : Monomial) : m.toFinsupp.degree = m.totalDegree := by
  have hsum : m.toFinsupp.degree = m.toFinsupp.sum fun _ e => e := rfl
  rw [hsum, sum_toFinsupp, totalDegree]
  induction m.factors with
  | nil =>
      rfl
  | cons f fs ih =>
      simp [ih]

/-! ## Comparing factor lists -/

/-- A symbol before the first one of a sorted list does not occur in it. -/
theorem listedExponent_of_lt {f : Symbol × UInt32} {fs : List (Symbol × UInt32)} {s : Symbol}
    (h : (f :: fs).Pairwise (fun f g => compare f.1 g.1 = .lt)) (hs : s < f.1) :
    listedExponent (f :: fs) s = 0 := by
  refine listedExponent_eq_zero ?_
  intro g hg
  rcases List.mem_cons.1 hg with rfl | hg
  · exact hs.ne'
  · exact (hs.trans (compare_lt_iff_lt.1 ((List.pairwise_cons.1 h).1 g hg))).ne'

/-- The list that is put first has the larger exponent at the first symbol where the two differ. -/
theorem exists_of_compareDescending_eq_lt {fs gs : List (Symbol × UInt32)}
    (hfs : fs.Pairwise (fun f g => compare f.1 g.1 = .lt)) (hpos : ∀ f ∈ fs, f.2 ≠ 0)
    (hgs : gs.Pairwise (fun f g => compare f.1 g.1 = .lt))
    (h : compareDescending fs gs = .lt) :
    ∃ s, (∀ t < s, listedExponent gs t = listedExponent fs t) ∧
      listedExponent gs s < listedExponent fs s := by
  induction fs generalizing gs with
  | nil =>
      -- A list that has ended is never put first.
      cases gs <;> cases h
  | cons f fs ih =>
      have hf : 0 < f.2.toNat := by
        refine Nat.pos_of_ne_zero fun hzero => ?_
        exact hpos f List.mem_cons_self (UInt32.toNat_inj.1 hzero)
      cases gs with
      | nil =>
          -- The right list has ended, and the left one still has a positive exponent.
          refine ⟨f.1, ?_, ?_⟩
          · intro t ht
            simp [listedExponent_of_lt hfs ht]
          · simp [hf]
      | cons g gs =>
          have htails := And.intro (List.pairwise_cons.1 hfs).2 (List.pairwise_cons.1 hgs).2
          simp only [compareDescending, Ordering.then_eq_lt, Ordering.then_eq_eq] at h
          rcases h with (hsymbol | ⟨hsymbol, hexponent⟩) | ⟨⟨hsymbol, hexponent⟩, hrest⟩
          · -- The first symbol of the left list is missing on the right.
            have hlt : f.1 < g.1 := compare_lt_iff_lt.1 hsymbol
            refine ⟨f.1, ?_, ?_⟩
            · intro t ht
              rw [listedExponent_of_lt hfs ht, listedExponent_of_lt hgs (ht.trans hlt)]
            · simp [listedExponent_of_lt hgs hlt, hf]
          · -- Both lists start with one symbol, and it has different exponents.
            have heq : f.1 = g.1 := compare_eq_iff_eq.1 hsymbol
            have hlt : g.2.toNat < f.2.toNat :=
              UInt32.lt_iff_toNat_lt.1 (Std.compare_eq_lt.1 hexponent)
            refine ⟨f.1, ?_, ?_⟩
            · intro t ht
              rw [listedExponent_of_lt hfs ht, listedExponent_of_lt hgs (heq ▸ ht)]
            · have hf' := listedExponent_tail hfs
              have hg' := listedExponent_tail hgs
              simp [heq, hlt, hg', heq ▸ hf']
          · -- The first factors are equal, so the difference is in the tails.
            have heq : f = g :=
              Prod.ext (Std.LawfulEqCmp.eq_of_compare hsymbol)
                (Std.LawfulEqCmp.eq_of_compare hexponent).symm
            subst heq
            rcases ih htails.1 (fun f' hf' => hpos f' (List.mem_cons_of_mem f hf')) htails.2 hrest
              with ⟨s, hbefore, hat⟩
            refine ⟨s, ?_, ?_⟩
            · intro t ht
              simp [hbefore t ht]
            · simpa using hat

theorem eq_of_compareDescending_eq_eq {fs gs : List (Symbol × UInt32)}
    (h : compareDescending fs gs = .eq) : fs = gs := by
  induction fs generalizing gs with
  | nil =>
      cases gs with
      | nil =>
          rfl
      | cons g gs =>
          cases h
  | cons f fs ih =>
      cases gs with
      | nil =>
          cases h
      | cons g gs =>
          simp only [compareDescending, Ordering.then_eq_eq] at h
          have hhead : f = g :=
            Prod.ext (Std.LawfulEqCmp.eq_of_compare h.1.1)
              (Std.LawfulEqCmp.eq_of_compare h.1.2).symm
          rw [hhead, ih h.2]

theorem swap_compareDescending (fs gs : List (Symbol × UInt32)) :
    (compareDescending fs gs).swap = compareDescending gs fs := by
  induction fs generalizing gs with
  | nil =>
      cases gs <;> rfl
  | cons f fs ih =>
      cases gs with
      | nil =>
          rfl
      | cons g gs =>
          simp only [compareDescending, Ordering.swap_then, ih]
          rw [← Std.OrientedCmp.eq_swap, ← Std.OrientedCmp.eq_swap]

/-! ## The graded order -/

/-- Comparing factor lists is comparing exponents, the larger ones first. -/
theorem compareDescending_factors (a b : Monomial) :
    compareDescending a.factors b.factors =
      compare (toLex b.toFinsupp) (toLex a.toFinsupp) := by
  have hlt : ∀ {a b : Monomial}, compareDescending a.factors b.factors = .lt →
      toLex b.toFinsupp < toLex a.toFinsupp := by
    intro a b h
    simpa [Finsupp.Lex.lt_iff, listedExponent_factors] using
      exists_of_compareDescending_eq_lt a.sorted a.positive b.sorted h
  cases h : compareDescending a.factors b.factors with
  | lt =>
      exact (compare_lt_iff_lt.2 (hlt h)).symm
  | eq =>
      rw [ext_factors (eq_of_compareDescending_eq_eq h)]
      exact (compare_eq_iff_eq.2 rfl).symm
  | gt =>
      -- Swapping the lists swaps the outcome, which leads back to the first case.
      have hswap : compareDescending b.factors a.factors = .lt := by
        rw [← swap_compareDescending, h]
        rfl
      exact (compare_gt_iff_gt.2 (hlt hswap)).symm

/-- The exponents of a monomial, ordered by degree and then lexicographically. -/
noncomputable def gradedKey (m : Monomial) : DegLex (Symbol →₀ Nat) :=
  toDegLex m.toFinsupp

theorem gradedKey_injective : Function.Injective gradedKey :=
  toDegLex_injective.comp toFinsupp_injective

theorem compareGraded_eq_compare (a b : Monomial) :
    compareGraded a b = compare b.gradedKey a.gradedKey := by
  -- Both orders look at the exponents only where the degrees are equal.
  have hkey : compare b.gradedKey a.gradedKey =
      (compare b.toFinsupp.degree a.toFinsupp.degree).then
        (compare (toLex b.toFinsupp) (toLex a.toFinsupp)) :=
    rfl
  rw [hkey, degree_toFinsupp, degree_toFinsupp, ← compareDescending_factors]
  rfl

end Monomial

end SymbolicPoly
