import Mathlib.Algebra.MvPolynomial.CommRing
import Mathlib.Algebra.Order.Monoid.Prod
import Mathlib.Order.Bounds.Basic
import SymbolicPoly.Proofs.Monomial.Graded

/-!
# Leading exponents — what cannot cancel in a product

Order the exponents of a polynomial by a key that turns sums into sums and tells exponents apart. The
sum of the leading exponents of two factors arises in one way only, so no other product of terms meets
it, and over a ring without zero divisors it leads the product (`IsLeading.mul`).

A weight is a sum of exponents in which some symbols may count for nothing. It does not tell exponents
apart, but as the first part of a key it does. Hence the largest weights of two factors add up to the
largest weight of the product (`isGreatest_weight_mul`). All degrees of a polynomial are weights.
-/

namespace SymbolicPoly

universe u v

namespace Leading

variable {R : Type u} [CommRing R] {f g : MvPolynomial Symbol R} {d e : Symbol →₀ Nat}

/-- Of the exponents of `f`, the key of `d` is the largest. -/
structure IsLeading {B : Type v} [LE B] (key : (Symbol →₀ Nat) → B) (f : MvPolynomial Symbol R)
    (d : Symbol →₀ Nat) : Prop where
  mem_support : d ∈ f.support
  le_key : ∀ e ∈ f.support, key e ≤ key d

section Keys

variable {B : Type v} [LinearOrder B]

theorem exists_isLeading (key : (Symbol →₀ Nat) → B) (hf : f ≠ 0) : ∃ d, IsLeading key f d := by
  have hsupport : f.support.Nonempty := Finset.nonempty_iff_ne_empty.2 (by simpa using hf)
  rcases Finset.exists_max_image f.support key hsupport with ⟨d, hd, hmax⟩
  exact ⟨d, hd, hmax⟩

variable [AddCommMonoid B] [IsOrderedCancelAddMonoid B] {key : (Symbol →₀ Nat) →+ B}

/-- Two exponents whose sum is that of the leading ones are the leading ones. -/
theorem IsLeading.eq_of_add_eq (hkey : Function.Injective key) (hd : IsLeading key f d)
    (he : IsLeading key g e) {d' e' : Symbol →₀ Nat} (hd' : d' ∈ f.support)
    (he' : e' ∈ g.support) (h : d' + e' = d + e) : d' = d ∧ e' = e := by
  have hsum : key d' + key e' = key d + key e := by
    rw [← map_add, ← map_add, h]
  -- Neither summand exceeds its leading one, so equal sums make both of them equal.
  have hboth := (add_eq_add_iff_eq_and_eq (hd.le_key d' hd') (he.le_key e' he')).1 hsum
  exact ⟨hkey hboth.1, hkey hboth.2⟩

theorem IsLeading.coeff_mul (hkey : Function.Injective key) (hd : IsLeading key f d)
    (he : IsLeading key g e) : (f * g).coeff (d + e) = f.coeff d * g.coeff e := by
  rw [MvPolynomial.coeff_mul]
  refine Finset.sum_eq_single (d, e) ?_ ?_
  · rintro ⟨d', e'⟩ hpair hne
    -- Any other pair with this sum has a member that is no exponent of its polynomial.
    by_contra hproduct
    have hd' : d' ∈ f.support := MvPolynomial.mem_support_iff.2 (left_ne_zero_of_mul hproduct)
    have he' : e' ∈ g.support := MvPolynomial.mem_support_iff.2 (right_ne_zero_of_mul hproduct)
    have heq := hd.eq_of_add_eq hkey he hd' he' (Finset.HasAntidiagonal.mem_antidiagonal.1 hpair)
    exact hne (Prod.ext heq.1 heq.2)
  · intro hpair
    exact (hpair (by simp)).elim

theorem IsLeading.mul [NoZeroDivisors R] (hkey : Function.Injective key) (hd : IsLeading key f d)
    (he : IsLeading key g e) : IsLeading key (f * g) (d + e) where
  mem_support := by
    rw [MvPolynomial.mem_support_iff, hd.coeff_mul hkey he]
    exact mul_ne_zero (MvPolynomial.mem_support_iff.1 hd.mem_support)
      (MvPolynomial.mem_support_iff.1 he.mem_support)
  le_key := by
    intro k hk
    -- Whatever does not cancel is a sum of two exponents, and both keys are bounded.
    rcases Finset.mem_add.1 (MvPolynomial.support_mul f g hk) with ⟨d', hd', e', he', rfl⟩
    rw [map_add, map_add]
    exact add_le_add (hd.le_key d' hd') (he.le_key e' he')

end Keys

/-! ## Weights -/

/-- A weight, and behind it the exponent in graded order. -/
noncomputable def weightKey (w : (Symbol →₀ Nat) →+ Nat) :
    (Symbol →₀ Nat) →+ Nat ×ₗ DegLex (Symbol →₀ Nat) where
  toFun d := toLex (w d, toDegLex d)
  map_zero' := by simp; rfl
  map_add' d e := by rw [map_add, toDegLex_add]; rfl

theorem weightKey_injective (w : (Symbol →₀ Nat) →+ Nat) : Function.Injective (weightKey w) := by
  intro d e h
  exact toDegLex_injective (congrArg Prod.snd (toLex.injective h))

/-- The weight of a leading exponent is the largest one. -/
theorem IsLeading.isGreatest_weight {w : (Symbol →₀ Nat) →+ Nat} (hd : IsLeading (weightKey w) f d) :
    IsGreatest (w '' f.support) (w d) := by
  refine ⟨⟨d, hd.mem_support, rfl⟩, ?_⟩
  rintro - ⟨e, he, rfl⟩
  exact Prod.Lex.monotone_fst _ _ (hd.le_key e he)

theorem isGreatest_weight_mul [NoZeroDivisors R] {w : (Symbol →₀ Nat) →+ Nat} {a b : Nat}
    (ha : IsGreatest (w '' f.support) a) (hb : IsGreatest (w '' g.support) b) :
    IsGreatest (w '' (f * g).support) (a + b) := by
  have hne : ∀ {f : MvPolynomial Symbol R} {a : Nat}, IsGreatest (w '' f.support) a → f ≠ 0 := by
    rintro f a ⟨⟨d, hd, -⟩, -⟩ rfl
    simp at hd
  rcases exists_isLeading (weightKey w) (hne ha) with ⟨d, hd⟩
  rcases exists_isLeading (weightKey w) (hne hb) with ⟨e, he⟩
  -- The exponents that lead in the longer key have the largest weights, and their sum leads there.
  rw [ha.unique hd.isGreatest_weight, hb.unique he.isGreatest_weight, ← map_add]
  exact (hd.mul (weightKey_injective w) he).isGreatest_weight

theorem isGreatest_weight_pow [NoZeroDivisors R] [Nontrivial R] {w : (Symbol →₀ Nat) →+ Nat} {a : Nat}
    (ha : IsGreatest (w '' f.support) a) (n : Nat) :
    IsGreatest (w '' (f ^ n).support) (n * a) := by
  induction n with
  | zero =>
      simp [MvPolynomial.support_one]
  | succ n ih =>
      rw [pow_succ, Nat.succ_mul]
      exact isGreatest_weight_mul ih ha

end Leading

end SymbolicPoly
