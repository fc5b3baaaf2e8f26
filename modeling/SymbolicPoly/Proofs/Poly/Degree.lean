import Mathlib.Order.Bounds.Basic
import SymbolicPoly.Proofs.Monomial.Graded
import SymbolicPoly.Proofs.Poly.Overflow
import SymbolicPoly.Proofs.Poly.Variables

/-!
# Degree — the degree queries as largest weights

Each degree query folds a maximum over the terms with a nonzero coefficient. For a polynomial that is
not zero the result is the greatest of the weights that its exponents have, in the sense of
`IsGreatest`: `isGreatest_degree`, `isGreatest_degreeIn`, `isGreatest_degreeInSet`.

The largest exponents of two canonical polynomials decide whether their product exists
(`Canonical.exists_mul_iff_degreeIn`).
-/

namespace SymbolicPoly

universe u v

/-! ## The largest value over a list -/

section Maximum

variable {α : Type u} {β : Type v} [LinearOrder α] {f : β → α} {ts : List β} {init : α}

theorem foldl_max_le_iff {a : α} :
    ts.foldl (fun d t => max d (f t)) init ≤ a ↔ init ≤ a ∧ ∀ t ∈ ts, f t ≤ a := by
  induction ts generalizing init with
  | nil =>
      simp
  | cons t ts ih =>
      simp [ih, and_assoc]

theorem le_foldl_max {t : β} (ht : t ∈ ts) (init : α) :
    f t ≤ ts.foldl (fun d t => max d (f t)) init :=
  (foldl_max_le_iff.1 (le_refl _)).2 t ht

theorem foldl_max_eq_init_or (f : β → α) (ts : List β) (init : α) :
    ts.foldl (fun d t => max d (f t)) init = init ∨
      ∃ t ∈ ts, f t = ts.foldl (fun d t => max d (f t)) init := by
  induction ts generalizing init with
  | nil =>
      exact .inl rfl
  | cons t ts ih =>
      rw [List.foldl_cons]
      rcases ih (max init (f t)) with hinit | ⟨u, hu, hmax⟩
      · -- Nothing in the tail is larger, so the choice was made at the head.
        rcases max_choice init (f t) with hchoice | hchoice
        · exact .inl (hinit.trans hchoice)
        · exact .inr ⟨t, List.mem_cons_self, (hinit.trans hchoice).symm⟩
      · exact .inr ⟨u, List.mem_cons_of_mem t hu, hmax⟩

theorem isGreatest_foldl_max (hinit : ∀ t ∈ ts, init ≤ f t) (hts : ts ≠ []) :
    IsGreatest (f '' {t | t ∈ ts}) (ts.foldl (fun d t => max d (f t)) init) := by
  refine ⟨?_, ?_⟩
  · rcases foldl_max_eq_init_or f ts init with hmax | hmax
    · -- The start is the value of every term then, since it is below all of them.
      rcases List.exists_mem_of_ne_nil ts hts with ⟨t, ht⟩
      exact ⟨t, ht, le_antisymm (le_foldl_max ht init) (hmax.trans_le (hinit t ht))⟩
    · exact hmax
  · rintro - ⟨t, ht, rfl⟩
    exact le_foldl_max ht init

end Maximum

namespace Monomial

/-- The sum of the exponents of the given symbols. -/
noncomputable def setDegree (symbols : Std.ExtTreeSet Symbol) : (Symbol →₀ Nat) →+ Nat :=
  Finsupp.degree.comp (Finsupp.filterAddHom (· ∈ symbols))

theorem setDegree_toFinsupp (m : Monomial) (symbols : Std.ExtTreeSet Symbol) :
    setDegree symbols m.toFinsupp = (m.restrict symbols.contains).totalDegree := by
  have hfilter : m.toFinsupp.filter (· ∈ symbols) = (m.restrict symbols.contains).toFinsupp := by
    ext s
    by_cases hs : s ∈ symbols
    · simp [hs]
    · simp [hs]
  rw [← degree_toFinsupp, ← hfilter]
  rfl

end Monomial

namespace Poly

variable {R : Type u} {K : CoeffRing R}

/-! ## The queries as maxima of weights -/

theorem degree_eq_foldl (p : Poly R) :
    p.degree K = (p.nonzeroTerms K).foldl (fun d t => max d (t.1.toFinsupp.degree : Int)) (-1) := by
  simp only [degree, Monomial.degree_toFinsupp]

theorem toNat_degreeIn (p : Poly R) (s : Symbol) :
    (p.degreeIn K s).toNat = (p.nonzeroTerms K).foldl (fun d t => max d (t.1.toFinsupp s)) 0 :=
  (List.foldl_hom UInt32.toNat fun d t => (UInt32.toNat_max d (t.1.exponent s)).symm).symm

theorem degreeInSet_eq_foldl (p : Poly R) (symbols : Std.ExtTreeSet Symbol) :
    p.degreeInSet K symbols =
      (p.nonzeroTerms K).foldl (fun d t => max d (Monomial.setDegree symbols t.1.toFinsupp)) 0 := by
  simp only [degreeInSet, Monomial.setDegree_toFinsupp]

theorem degreeIn_empty (s : Symbol) : (∅ : Poly R).degreeIn K s = 0 := by
  simp [degreeIn, nonzeroTerms, toList_empty]

theorem exponent_le_degreeIn {p : Poly R} {t : Monomial × R}
    (ht : t ∈ p.nonzeroTerms K) (s : Symbol) :
    (t.1.exponent s).toNat ≤ (p.degreeIn K s).toNat := by
  rw [toNat_degreeIn]
  exact le_foldl_max (f := fun t => t.1.toFinsupp s) ht 0

variable {p q : Poly R}

/-- The variables are the symbols that have an exponent somewhere. -/
theorem mem_vars_iff_degreeIn {s : Symbol} : s ∈ p.vars K ↔ p.degreeIn K s ≠ 0 := by
  have hterm : s ∈ p.vars K ↔ ∃ t ∈ p.nonzeroTerms K, t.1.exponent s ≠ 0 := by
    simp only [mem_vars_iff_nonzeroTerms, Monomial.mem_vars_iff]
  rw [hterm]
  constructor
  · rintro ⟨t, ht, hexponent⟩ hzero
    have hle := exponent_le_degreeIn ht s
    rw [hzero] at hle
    exact hexponent (UInt32.toNat_inj.1 (Nat.le_zero.1 hle))
  · intro hdegree
    by_contra hnone
    -- Without an exponent anywhere the maximum stays where it starts.
    have hzero : (p.degreeIn K s).toNat ≤ 0 := by
      rw [toNat_degreeIn]
      refine foldl_max_le_iff.2 ⟨le_refl 0, ?_⟩
      intro t ht
      have hexponent : t.1.exponent s = 0 := by
        by_contra hne
        exact hnone ⟨t, ht, hne⟩
      simp [hexponent]
    exact hdegree (UInt32.toNat_inj.1 (Nat.le_zero.1 hzero))

variable [CommRing R] [K.Agrees]

/-- The largest exponent of a symbol is the degree that Mathlib gives the polynomial in it. -/
theorem toNat_degreeIn_eq_degreeOf (p : Poly R) (s : Symbol) :
    (p.degreeIn K s).toNat = p.toMvPolynomial.degreeOf s := by
  rw [toNat_degreeIn]
  refine le_antisymm ?_ ?_
  · refine foldl_max_le_iff.2 ⟨Nat.zero_le _, ?_⟩
    intro t ht
    exact MvPolynomial.monomial_le_degreeOf s (mem_support_toMvPolynomial_iff.2 ⟨t, ht, rfl⟩)
  · refine MvPolynomial.degreeOf_le_iff.2 fun d hd => ?_
    rcases (mem_support_toMvPolynomial_iff (K := K)).1 hd with ⟨t, ht, rfl⟩
    exact le_foldl_max (f := fun t => t.1.toFinsupp s) ht 0

/-- Terms may cancel, so the largest exponent in a product can be smaller than the sum. -/
theorem degreeIn_mul_le {r : Poly R} (h : p.mul K q = .ok r) (s : Symbol) :
    (r.degreeIn K s).toNat ≤ (p.degreeIn K s).toNat + (q.degreeIn K s).toNat := by
  simp only [toNat_degreeIn_eq_degreeOf, toMvPolynomial_mul h]
  exact MvPolynomial.degreeOf_mul_le s _ _

theorem degreeIn_pow_le {r : Poly R} {n : Nat} (h : p.pow K n = .ok r) (s : Symbol) :
    (r.degreeIn K s).toNat ≤ n * (p.degreeIn K s).toNat := by
  simp only [toNat_degreeIn_eq_degreeOf, toMvPolynomial_pow h]
  exact MvPolynomial.degreeOf_pow_le s _ n

theorem degreeIn_monomial_le (m : Monomial) (c : R) (s : Symbol) :
    ((monomial K m c).degreeIn K s).toNat ≤ (m.exponent s).toNat := by
  rw [toNat_degreeIn]
  refine foldl_max_le_iff.2 ⟨Nat.zero_le _, ?_⟩
  intro t ht
  rw [fst_eq_of_mem_toList_monomial (mem_nonzeroTerms_iff.1 ht).1, Monomial.toFinsupp_apply]

theorem degreeIn_symbol_le (u s : Symbol) :
    ((symbol K u).degreeIn K s).toNat ≤ if u = s then 1 else 0 :=
  (degreeIn_monomial_le (.ofSymbol u) K.one s).trans_eq
    (by simp [Monomial.exponent_ofSymbol, apply_ite UInt32.toNat, eq_comm])

theorem degreeIn_constant (c : R) (s : Symbol) : (constant K c).degreeIn K s = 0 :=
  UInt32.toNat_inj.1 (Nat.le_zero.1 (degreeIn_monomial_le .one c s))

theorem degreeIn_one (s : Symbol) : (one K).degreeIn K s = 0 :=
  degreeIn_constant K.one s

/-! ## Weights of a polynomial that is not zero -/

theorem nonzeroTerms_ne_nil (hp : p.toMvPolynomial ≠ 0) : p.nonzeroTerms K ≠ [] := by
  intro hnil
  apply hp
  rw [← MvPolynomial.support_eq_empty, Finset.eq_empty_iff_forall_notMem]
  intro d hd
  rcases (mem_support_toMvPolynomial_iff (K := K)).1 hd with ⟨t, ht, -⟩
  rw [hnil] at ht
  cases ht

theorem image_support {α : Type v} (w : (Symbol →₀ Nat) → α) :
    w '' p.toMvPolynomial.support = (fun t => w t.1.toFinsupp) '' {t | t ∈ p.nonzeroTerms K} := by
  ext a
  simp only [Set.mem_image, Finset.mem_coe, mem_support_toMvPolynomial_iff (K := K), Set.mem_ofPred_eq]
  constructor
  · rintro ⟨-, ⟨t, ht, rfl⟩, ha⟩
    exact ⟨t, ht, ha⟩
  · rintro ⟨t, ht, ha⟩
    exact ⟨_, ⟨t, ht, rfl⟩, ha⟩

/-- The maximum that a query folds over the terms is the greatest of the weights. -/
theorem isGreatest_foldl_weight {α : Type v} [LinearOrder α] (hp : p.toMvPolynomial ≠ 0)
    (w : (Symbol →₀ Nat) → α) {init : α} (hinit : ∀ d, init ≤ w d) :
    IsGreatest (w '' p.toMvPolynomial.support)
      ((p.nonzeroTerms K).foldl (fun d t => max d (w t.1.toFinsupp)) init) := by
  rw [image_support (K := K) w]
  exact isGreatest_foldl_max (fun t _ => hinit _) (nonzeroTerms_ne_nil hp)

/-! ## Degrees of a polynomial that is not zero -/

theorem isGreatest_degreeIn (hp : p.toMvPolynomial ≠ 0) (s : Symbol) :
    IsGreatest (Finsupp.applyAddHom s '' p.toMvPolynomial.support) (p.degreeIn K s).toNat := by
  rw [toNat_degreeIn]
  exact isGreatest_foldl_weight hp (fun d => d s) fun d => Nat.zero_le _

theorem isGreatest_degreeInSet (hp : p.toMvPolynomial ≠ 0) (symbols : Std.ExtTreeSet Symbol) :
    IsGreatest (Monomial.setDegree symbols '' p.toMvPolynomial.support)
      (p.degreeInSet K symbols) := by
  rw [degreeInSet_eq_foldl]
  exact isGreatest_foldl_weight hp (Monomial.setDegree symbols) fun d => Nat.zero_le _

/-- Only the zero polynomial has a negative degree. -/
theorem isGreatest_degree (hp : p.toMvPolynomial ≠ 0) :
    ∃ n : Nat, p.degree K = n ∧
      IsGreatest ((Finsupp.degree : (Symbol →₀ Nat) →+ Nat) '' p.toMvPolynomial.support) n := by
  have hmax : IsGreatest ((fun d : Symbol →₀ Nat => (d.degree : Int)) '' p.toMvPolynomial.support)
      (p.degree K) := by
    rw [degree_eq_foldl]
    exact isGreatest_foldl_weight hp _ fun d => by omega
  rcases hmax with ⟨⟨d, hd, hdegree⟩, hupper⟩
  refine ⟨d.degree, hdegree.symm, ⟨d, hd, rfl⟩, ?_⟩
  rintro - ⟨e, he, rfl⟩
  have hle : (e.degree : Int) ≤ p.degree K := hupper ⟨e, he, rfl⟩
  exact Int.ofNat_le.1 (hle.trans hdegree.ge)

/-! ## Canonical polynomials -/

theorem Canonical.toMvPolynomial_eq_zero_iff (hp : p.Canonical K) :
    p.toMvPolynomial = 0 ↔ p = ∅ := by
  rw [← toMvPolynomial_empty]
  exact hp.toMvPolynomial_inj canonical_empty

theorem Canonical.nonzeroTerms_eq (hp : p.Canonical K) : p.nonzeroTerms K = p.toList := by
  refine List.filter_eq_self.2 fun t ht => ?_
  simpa using hp.toList_ne_zero t ht

/-- The largest exponent of a symbol occurs in some term. -/
theorem Canonical.exists_exponent_eq_degreeIn (hp : p.Canonical K) (hne : p ≠ ∅) (s : Symbol) :
    ∃ t ∈ p.toList, t.1.exponent s = p.degreeIn K s := by
  have hzero : p.toMvPolynomial ≠ 0 := by simpa [hp.toMvPolynomial_eq_zero_iff] using hne
  have hmax := (isGreatest_degreeIn (K := K) hzero s).1
  rw [image_support (K := K), hp.nonzeroTerms_eq] at hmax
  rcases hmax with ⟨t, ht, hexponent⟩
  exact ⟨t, ht, UInt32.toNat_inj.1 hexponent⟩

/-- A product exists if no symbol gets too large an exponent from the largest ones of the factors. -/
theorem Canonical.exists_mul_iff_degreeIn (hp : p.Canonical K) (hq : q.Canonical K) :
    (∃ r, p.mul K q = .ok r) ↔
      ∀ s, (p.degreeIn K s).toNat + (q.degreeIn K s).toNat < UInt32.size := by
  simp only [exists_mul_eq_ok_iff, Monomial.exists_mul_eq_ok_iff]
  constructor
  · intro h s
    -- Without terms on one side only the exponents of the other side count.
    by_cases hpe : p = ∅
    · simpa [hpe, degreeIn_empty] using (q.degreeIn K s).toNat_lt_size
    by_cases hqe : q = ∅
    · simpa [hqe, degreeIn_empty] using (p.degreeIn K s).toNat_lt_size
    rcases hp.exists_exponent_eq_degreeIn hpe s with ⟨t, ht, hts⟩
    rcases hq.exists_exponent_eq_degreeIn hqe s with ⟨t', ht', hts'⟩
    rw [← hts, ← hts']
    exact h t ht t' ht' s
  · intro h t ht t' ht' s
    have hle := exponent_le_degreeIn (hp.nonzeroTerms_eq ▸ ht) s
    have hle' := exponent_le_degreeIn (hq.nonzeroTerms_eq ▸ ht') s
    exact (Nat.add_le_add hle hle').trans_lt (h s)

end Poly

end SymbolicPoly
