import SymbolicPoly.Proofs.Monomial.TermOrder
import SymbolicPoly.Proofs.Poly.Collection
import SymbolicPoly.Proofs.Poly.Constants

/-!
# Queries — degrees, variables and constants fit together

Each query goes through the terms with a nonzero coefficient on its own. Collecting the terms keeps
exactly these (`Lists.nonzeroTerms_ofTerms`), so a query cannot tell a polynomial with stored zeros from
the canonical one that is made of its terms (`Lists.sameAnswers`).

The answers also determine one another (`coherentAnswers`). Most are maxima, and two maxima are equal if
they have the same upper bounds. The queries about constants read the stored constant term, which can be
zero. They are read through `coeff` here, which does not see whether a zero is stored.
-/

namespace SymbolicPoly

universe u

/-! ## Monomials -/

namespace Monomial

theorem eq_one_iff_vars {m : Monomial} : m = one ↔ ∀ s, s ∉ m.vars := by
  constructor
  · rintro rfl s
    exact List.not_mem_nil
  · intro h
    refine ext_exponent fun s => ?_
    simpa [mem_vars_iff] using h s

theorem totalDegree_eq_zero_iff {m : Monomial} : m.totalDegree = 0 ↔ m = one := by
  rw [← degree_toFinsupp, Finsupp.degree_eq_zero_iff, ← toFinsupp_one, toFinsupp_inj]

/-- An exponent is bounded by what bounds the factor with that symbol, if there is one. -/
theorem toNat_exponent_le_iff {m : Monomial} {s : Symbol} {b : Nat} :
    (m.exponent s).toNat ≤ b ↔ ∀ f ∈ m.factors, f.1 = s → f.2.toNat ≤ b := by
  constructor
  · rintro h f hf rfl
    rwa [exponent_of_mem hf] at h
  · intro h
    by_cases hzero : m.exponent s = 0
    · simp [hzero]
    · exact h (s, m.exponent s) (mem_factors_iff.2 ⟨rfl, hzero⟩) rfl

/-! ## Degrees in some of the symbols -/

variable {A B : Std.ExtTreeSet Symbol} {d : Symbol →₀ Nat}

theorem setDegree_mono (h : ∀ s ∈ A, s ∈ B) (d : Symbol →₀ Nat) : setDegree A d ≤ setDegree B d := by
  have hfilter : d.filter (· ∈ A) ≤ d.filter (· ∈ B) := by
    intro s
    by_cases hs : s ∈ A
    · simp [hs, h s hs]
    · simp [hs]
  exact Finsupp.degree_mono hfilter

theorem setDegree_eq_degree (h : ∀ s, d s ≠ 0 → s ∈ A) : setDegree A d = d.degree :=
  congrArg Finsupp.degree ((Finsupp.filter_eq_self_iff _ d).2 h)

theorem setDegree_le (A : Std.ExtTreeSet Symbol) (d : Symbol →₀ Nat) : setDegree A d ≤ d.degree := by
  have hfilter : d.filter (· ∈ A) ≤ d := by
    intro s
    by_cases hs : s ∈ A
    · simp [hs]
    · simp [hs]
  exact Finsupp.degree_mono hfilter

theorem setDegree_singleton (s : Symbol) (d : Symbol →₀ Nat) : setDegree {s} d = d s := by
  have hfilter : d.filter (· ∈ ({s} : Std.ExtTreeSet Symbol)) = Finsupp.single s (d s) := by
    ext t
    by_cases ht : t = s
    · simp [ht]
    · simp [ht]
  exact (congrArg Finsupp.degree hfilter).trans (Finsupp.degree_single s (d s))

end Monomial

namespace Poly

variable {R : Type u} {K : CoeffRing R} {p : Poly R} {s : Symbol} {ts : List (Monomial × R)}

/-! ## Tables of degrees -/

theorem getD_noteFactor (degrees : ExponentTable) (f : Symbol × UInt32) (s : Symbol) :
    ((noteFactor degrees f)[s]?.getD 0).toNat =
      max (degrees[s]?.getD 0).toNat (if f.1 = s then f.2.toNat else 0) := by
  rw [noteFactor, Std.ExtTreeMap.getElem?_alter]
  by_cases hs : f.1 = s
  · simp [hs, UInt32.toNat_max]
  · simp [hs]

theorem mem_noteFactor {degrees : ExponentTable} {f : Symbol × UInt32} :
    s ∈ noteFactor degrees f ↔ f.1 = s ∨ s ∈ degrees := by
  rw [noteFactor, Std.ExtTreeMap.mem_alter]
  by_cases hs : f.1 = s
  · simp [hs]
  · simp [hs]

theorem mem_foldl_noteFactor {fs : List (Symbol × UInt32)} {degrees : ExponentTable} :
    s ∈ fs.foldl noteFactor degrees ↔ s ∈ degrees ∨ ∃ f ∈ fs, f.1 = s := by
  induction fs generalizing degrees with
  | nil =>
      simp
  | cons f fs ih =>
      simp [ih, mem_noteFactor, or_assoc, or_left_comm]

theorem getD_foldl_noteFactor (fs : List (Symbol × UInt32)) (degrees : ExponentTable) (s : Symbol) :
    ((fs.foldl noteFactor degrees)[s]?.getD 0).toNat =
      fs.foldl (fun d f => max d (if f.1 = s then f.2.toNat else 0)) (degrees[s]?.getD 0).toNat :=
  (List.foldl_hom (fun degrees : ExponentTable => (degrees[s]?.getD 0).toNat)
    fun degrees f => (getD_noteFactor degrees f s).symm).symm

theorem degrees_eq_foldl (p : Poly R) :
    p.degrees K = ((p.nonzeroTerms K).flatMap fun t => t.1.factors).foldl noteFactor ∅ :=
  List.foldl_flatMap.symm

theorem mem_degrees_iff : s ∈ p.degrees K ↔ s ∈ p.vars K := by
  rw [degrees_eq_foldl, mem_foldl_noteFactor, mem_vars_iff_nonzeroTerms]
  simp only [Std.ExtTreeMap.not_mem_empty, false_or, List.mem_flatMap, Monomial.vars, List.mem_map]
  constructor
  · rintro ⟨f, ⟨t, ht, hf⟩, hs⟩
    exact ⟨t, ht, f, hf, hs⟩
  · rintro ⟨t, ht, f, hf, hs⟩
    exact ⟨f, ⟨t, ht, hf⟩, hs⟩

/-- The table has one entry for each variable. -/
theorem size_degrees (p : Poly R) : (p.degrees K).size = p.varCount K := by
  have hnodup : (p.vars K).toList.Nodup :=
    Std.ExtTreeSet.distinct_toList.imp fun hne heq => hne (Std.LawfulEqCmp.compare_eq_iff_eq.2 heq)
  have hperm : (p.degrees K).keys.Perm (p.vars K).toList := by
    refine (List.perm_ext_iff_of_nodup Std.ExtTreeMap.nodup_keys hnodup).2 fun s => ?_
    rw [Std.ExtTreeMap.mem_keys, Std.ExtTreeSet.mem_toList, mem_degrees_iff]
  calc
    (p.degrees K).size = (p.degrees K).keys.length := Std.ExtTreeMap.length_keys.symm
    _ = (p.vars K).toList.length := hperm.length_eq
    _ = p.varCount K := Std.ExtTreeSet.length_toList

/-- The table bounds all factors with the symbol, the exponents of the symbol are these and zeros. -/
theorem degreeIn_eq_getD_degrees (p : Poly R) (s : Symbol) :
    p.degreeIn K s = (p.degrees K)[s]?.getD 0 := by
  refine UInt32.toNat_inj.1 (eq_of_forall_ge_iff fun b => ?_)
  have hfactor : ∀ f : Symbol × UInt32,
      (if f.1 = s then f.2.toNat else 0) ≤ b ↔ (f.1 = s → f.2.toNat ≤ b) := by
    intro f
    by_cases hs : f.1 = s
    · simp [hs]
    · simp [hs]
  calc
    (p.degreeIn K s).toNat ≤ b
        ↔ ∀ t ∈ p.nonzeroTerms K, ∀ f ∈ t.1.factors, f.1 = s → f.2.toNat ≤ b := by
          simp only [toNat_degreeIn, foldl_max_le_iff, Nat.zero_le, true_and,
            Monomial.toFinsupp_apply, Monomial.toNat_exponent_le_iff]
    _ ↔ ∀ f ∈ (p.nonzeroTerms K).flatMap fun t => t.1.factors, f.1 = s → f.2.toNat ≤ b := by
          simp only [List.forall_mem_flatMap]
    _ ↔ ((p.degrees K)[s]?.getD 0).toNat ≤ b := by
          simp [degrees_eq_foldl, getD_foldl_noteFactor, foldl_max_le_iff, hfactor]

/-! ## Degrees in some of the symbols -/

theorem degreeInSet_singleton (p : Poly R) (s : Symbol) :
    p.degreeInSet K {s} = (p.degreeIn K s).toNat := by
  simp only [degreeInSet_eq_foldl, Monomial.setDegree_singleton, toNat_degreeIn]

theorem degreeInSet_mono {A B : Std.ExtTreeSet Symbol} (h : ∀ s ∈ A, s ∈ B) :
    p.degreeInSet K A ≤ p.degreeInSet K B := by
  rw [degreeInSet_eq_foldl, degreeInSet_eq_foldl]
  refine foldl_max_le_iff.2 ⟨Nat.zero_le _, fun t ht => ?_⟩
  exact (Monomial.setDegree_mono h t.1.toFinsupp).trans
    (le_foldl_max (f := fun t => Monomial.setDegree B t.1.toFinsupp) ht 0)

theorem totalDegree_le_degree {t : Monomial × R} (ht : t ∈ p.nonzeroTerms K) :
    (t.1.totalDegree : Int) ≤ p.degree K :=
  le_foldl_max (f := fun t => (t.1.totalDegree : Int)) ht (-1)

theorem degreeInSet_le (p : Poly R) (symbols : Std.ExtTreeSet Symbol) :
    (p.degreeInSet K symbols : Int) ≤ max (p.degree K) 0 := by
  have hle : p.degreeInSet K symbols ≤ (max (p.degree K) 0).toNat := by
    rw [degreeInSet_eq_foldl]
    refine foldl_max_le_iff.2 ⟨Nat.zero_le _, fun t ht => ?_⟩
    have hset := Monomial.setDegree_le symbols t.1.toFinsupp
    have hdegree := totalDegree_le_degree ht
    rw [Monomial.degree_toFinsupp] at hset
    omega
  omega

/-- No exponent is left out if all variables are counted. -/
theorem degreeInSet_vars (p : Poly R) :
    (p.degreeInSet K (p.vars K) : Int) = max (p.degree K) 0 := by
  refine le_antisymm (degreeInSet_le p _) (max_le ?_ (Int.natCast_nonneg _))
  refine foldl_max_le_iff.2 ⟨by omega, fun t ht => ?_⟩
  have hall : Monomial.setDegree (p.vars K) t.1.toFinsupp = t.1.totalDegree := by
    rw [← Monomial.degree_toFinsupp]
    refine Monomial.setDegree_eq_degree fun s hs => mem_vars_iff_nonzeroTerms.2 ⟨t, ht, ?_⟩
    exact Monomial.mem_vars_iff.2 fun hzero => hs (by simp [hzero])
  rw [← hall, degreeInSet_eq_foldl]
  exact Int.ofNat_le.2
    (le_foldl_max (f := fun t => Monomial.setDegree (p.vars K) t.1.toFinsupp) ht 0)

/-! ## Constants -/

theorem isConstant_iff_vars : p.isConstant K = true ↔ p.vars K = ∅ := by
  rw [isConstant_iff, Std.ExtTreeSet.eq_empty_iff_forall_not_mem]
  simp only [Monomial.eq_one_iff_vars, mem_vars_iff_nonzeroTerms, not_exists, not_and]
  exact ⟨fun h s t ht => h t ht s, fun h t ht s => h s t ht⟩

theorem isConstant_iff_degree : p.isConstant K = true ↔ p.degree K ≤ 0 := by
  rw [isConstant_iff, degree, foldl_max_le_iff]
  simp [← Monomial.totalDegree_eq_zero_iff]

theorem degree_eq_neg_one_iff : p.degree K = -1 ↔ p.nonzeroTerms K = [] := by
  constructor
  · intro h
    refine List.eq_nil_iff_forall_not_mem.2 fun t ht => ?_
    have hle := totalDegree_le_degree ht
    omega
  · intro h
    rw [degree, h, List.foldl_nil]

section Agrees

variable [CommRing R] [K.Agrees]

theorem isNonzeroConstant_iff :
    p.isNonzeroConstant K = true ↔ p.isConstant K = true ∧ p.coeff K .one ≠ 0 := by
  rw [isNonzeroConstant, Bool.and_eq_true]
  refine and_congr_right fun _ => ?_
  cases hterm : p.constantTerm? with
  | none =>
      have hstored : p.coefficient? .one = none := hterm
      simp [coeff, hstored]
  | some c =>
      have hstored : p.coefficient? .one = some c := hterm
      simp [coeff, hstored]

theorem coeff_one_eq_zero_iff (hp : p.isConstant K = true) :
    p.coeff K .one = 0 ↔ p.degree K = -1 := by
  rw [degree_eq_neg_one_iff, ← not_iff_not, ← ne_eq, coeff_ne_zero_iff]
  constructor
  · rintro ⟨t, ht, hne, -⟩ hnil
    exact List.not_mem_nil (hnil ▸ mem_nonzeroTerms_iff.2 ⟨ht, hne⟩)
  · intro hne
    rcases List.exists_mem_of_ne_nil _ hne with ⟨t, ht⟩
    rcases mem_nonzeroTerms_iff.1 ht with ⟨hmem, hcoeff⟩
    exact ⟨t, hmem, hcoeff, isConstant_iff.1 hp t ht⟩

theorem isNonzeroConstant_iff_degree : p.isNonzeroConstant K = true ↔ p.degree K = 0 := by
  have hlow : -1 ≤ p.degree K := (foldl_max_le_iff.1 (le_refl _)).1
  rw [isNonzeroConstant_iff]
  constructor
  · rintro ⟨hconstant, hne⟩
    have hdegree := isConstant_iff_degree.1 hconstant
    have hzero := mt (coeff_one_eq_zero_iff hconstant).2 hne
    omega
  · intro hdegree
    have hconstant : p.isConstant K = true := isConstant_iff_degree.2 hdegree.le
    refine ⟨hconstant, fun hzero => ?_⟩
    have hneg := (coeff_one_eq_zero_iff hconstant).1 hzero
    omega

theorem degree_eq_neg_one_iff_constantValue? :
    p.degree K = -1 ↔ p.constantValue? K = some K.zero := by
  rw [constantValue?_eq_some_iff, CoeffRing.Agrees.zero_eq]
  constructor
  · intro hdegree
    have hconstant : p.isConstant K = true := isConstant_iff_degree.2 (by omega)
    exact ⟨hconstant, (coeff_one_eq_zero_iff hconstant).2 hdegree⟩
  · rintro ⟨hconstant, hzero⟩
    exact (coeff_one_eq_zero_iff hconstant).1 hzero

theorem coeff_eq_zero_of_isConstant (hp : p.isConstant K = true) {m : Monomial} (hm : m ≠ .one) :
    p.coeff K m = 0 := by
  by_contra hne
  rcases coeff_ne_zero_iff.1 hne with ⟨t, ht, hcoeff, rfl⟩
  exact hm (isConstant_iff.1 hp t (mem_nonzeroTerms_iff.2 ⟨ht, hcoeff⟩))

/-! ## Collecting the terms -/

theorem Lists.coefficient?_ofTerms_eq_some_iff (h : p.Lists ts) {m : Monomial} {c : R} :
    (ofTerms K ts).coefficient? m = some c ↔ p.coefficient? m = some c ∧ c ≠ 0 := by
  rw [(canonical_ofTerms ts).coefficient?_eq_some_iff, h.coeff_ofTerms]
  refine and_congr_left fun hne => ?_
  cases hm : p.coefficient? m with
  | none =>
      simpa [coeff, hm] using hne
  | some d =>
      simp [coeff, hm, eq_comm]

theorem Lists.ofTerms_eq_filter (h : p.Lists ts) :
    ofTerms K ts = ⟨p.terms.filter fun _ c => !K.isZero c⟩ := by
  refine ext_coefficient? fun m => Option.ext fun c => ?_
  have hfilter : (Poly.mk (p.terms.filter fun _ c => !K.isZero c)).coefficient? m =
      (p.coefficient? m).filter fun c => !K.isZero c := Std.ExtTreeMap.getElem?_filter'
  rw [h.coefficient?_ofTerms_eq_some_iff, hfilter, Option.filter_eq_some_iff]
  simp

/-- Collecting the terms of a polynomial keeps those with a nonzero coefficient, in their order. -/
theorem Lists.nonzeroTerms_ofTerms (h : p.Lists ts) :
    (ofTerms K ts).nonzeroTerms K = p.nonzeroTerms K := by
  rw [(canonical_ofTerms ts).nonzeroTerms_eq, h.ofTerms_eq_filter]
  exact Std.ExtTreeMap.toList_filter

theorem Lists.isConstant_ofTerms (h : p.Lists ts) :
    (ofTerms K ts).isConstant K = p.isConstant K := by
  rw [isConstant, isConstant, h.nonzeroTerms_ofTerms]

theorem Lists.constantValue?_ofTerms (h : p.Lists ts) :
    (ofTerms K ts).constantValue? K = p.constantValue? K := by
  refine Option.ext fun c => ?_
  rw [Poly.constantValue?_eq_some_iff, Poly.constantValue?_eq_some_iff, h.isConstant_ofTerms,
    h.coeff_ofTerms]

theorem Lists.isNonzeroConstant_ofTerms (h : p.Lists ts) :
    (ofTerms K ts).isNonzeroConstant K = p.isNonzeroConstant K := by
  refine Bool.eq_iff_iff.2 ?_
  rw [isNonzeroConstant_iff, isNonzeroConstant_iff, h.isConstant_ofTerms, h.coeff_ofTerms]

theorem Lists.constantValue?_eq_some_iff (h : p.Lists ts) {c : R} :
    p.constantValue? K = some c ↔ ofTerms K ts = constant K c := by
  constructor
  · intro hvalue
    rcases Poly.constantValue?_eq_some_iff.1 hvalue with ⟨hconstant, hone⟩
    refine (canonical_ofTerms ts).ext_coeff (canonical_monomial .one c) fun m => ?_
    rw [h.coeff_ofTerms]
    by_cases hm : m = .one
    · rw [hm, hone]
      exact ((coeff_constant c .one).trans (if_pos rfl)).symm
    · rw [coeff_eq_zero_of_isConstant hconstant hm]
      exact ((coeff_constant c m).trans (if_neg (Ne.symm hm))).symm
  · intro hcollected
    have hvalue := constantValue?_constant (K := K) c
    rwa [← hcollected, h.constantValue?_ofTerms] at hvalue

end Agrees

/-! ## All queries together -/

/-- Every query has the same answer for both polynomials. -/
structure SameAnswers (K : CoeffRing R) (p q : Poly R) : Prop where
  degree : p.degree K = q.degree K
  degrees : p.degrees K = q.degrees K
  degreeIn : ∀ s, p.degreeIn K s = q.degreeIn K s
  degreeInSet : ∀ symbols, p.degreeInSet K symbols = q.degreeInSet K symbols
  vars : p.vars K = q.vars K
  varCount : p.varCount K = q.varCount K
  isConstant : p.isConstant K = q.isConstant K
  isNonzeroConstant : p.isNonzeroConstant K = q.isNonzeroConstant K
  constantValue? : p.constantValue? K = q.constantValue? K

/-- The answers that a polynomial gives to different queries fit together. -/
structure CoherentAnswers (K : CoeffRing R) (p : Poly R) : Prop where
  mem_degrees_iff : ∀ s, s ∈ p.degrees K ↔ s ∈ p.vars K
  size_vars : (p.vars K).size = p.varCount K
  size_degrees : (p.degrees K).size = p.varCount K
  degreeIn_eq : ∀ s, p.degreeIn K s = (p.degrees K)[s]?.getD 0
  degreeInSet_singleton : ∀ s, p.degreeInSet K {s} = (p.degreeIn K s).toNat
  degreeInSet_mono : ∀ A B : Std.ExtTreeSet Symbol, (∀ s ∈ A, s ∈ B) →
    p.degreeInSet K A ≤ p.degreeInSet K B
  degreeInSet_vars : (p.degreeInSet K (p.vars K) : Int) = max (p.degree K) 0
  isConstant_iff_vars : p.isConstant K = true ↔ p.vars K = ∅
  isConstant_iff_degree : p.isConstant K = true ↔ p.degree K ≤ 0
  isNonzeroConstant_iff_degree : p.isNonzeroConstant K = true ↔ p.degree K = 0
  degree_eq_neg_one_iff : p.degree K = -1 ↔ p.constantValue? K = some K.zero

theorem Lists.sameAnswers [CommRing R] [K.Agrees] (h : p.Lists ts) :
    SameAnswers K p (ofTerms K ts) where
  degree := by rw [degree, degree, h.nonzeroTerms_ofTerms]
  degrees := by rw [degrees, degrees, h.nonzeroTerms_ofTerms]
  degreeIn s := by rw [degreeIn, degreeIn, h.nonzeroTerms_ofTerms]
  degreeInSet symbols := by rw [degreeInSet, degreeInSet, h.nonzeroTerms_ofTerms]
  vars := by rw [vars, vars, h.nonzeroTerms_ofTerms]
  varCount := by rw [varCount, varCount, vars, vars, h.nonzeroTerms_ofTerms]
  isConstant := h.isConstant_ofTerms.symm
  isNonzeroConstant := h.isNonzeroConstant_ofTerms.symm
  constantValue? := h.constantValue?_ofTerms.symm

theorem coherentAnswers [CommRing R] [K.Agrees] (p : Poly R) : CoherentAnswers K p where
  mem_degrees_iff _ := mem_degrees_iff
  size_vars := rfl
  size_degrees := size_degrees p
  degreeIn_eq := degreeIn_eq_getD_degrees p
  degreeInSet_singleton := degreeInSet_singleton p
  degreeInSet_mono _ _ := degreeInSet_mono
  degreeInSet_vars := degreeInSet_vars p
  isConstant_iff_vars := isConstant_iff_vars
  isConstant_iff_degree := isConstant_iff_degree
  isNonzeroConstant_iff_degree := isNonzeroConstant_iff_degree
  degree_eq_neg_one_iff := degree_eq_neg_one_iff_constantValue?

/-- With fewer than 2 ^ 31 symbols in each term, degrees are machine integers. -/
theorem degree_lt (h : ∀ t ∈ p.nonzeroTerms K, t.1.size < 2 ^ 31) : p.degree K < 2 ^ 63 := by
  refine Int.lt_of_le_sub_one (foldl_max_le_iff.2 ⟨by omega, fun t ht => ?_⟩)
  have hdegree := t.1.totalDegree_le
  have hsize := h t ht
  omega

/-- The queries see a polynomial as the sum of its terms, whatever zeros are stored, and their answers
fit together. A constant polynomial is one whose terms add up to a constant. -/
theorem queries_coherent (hK : K.Lawful) (p : Poly R) :
    (∀ ts, p.Lists ts → SameAnswers K p (ofTerms K ts)) ∧
      CoherentAnswers K p ∧
      (∀ ts, p.Lists ts → ∀ c, p.constantValue? K = some c ↔ ofTerms K ts = constant K c) ∧
      ((∀ t ∈ p.nonzeroTerms K, t.1.size < 2 ^ 31) →
        p.degree K < 2 ^ 63 ∧ ∀ symbols, p.degreeInSet K symbols < 2 ^ 63) := by
  let _ := hK.toCommRing
  have _ := hK.agrees
  refine ⟨fun ts h => h.sameAnswers, coherentAnswers p, ?_, ?_⟩
  · intro ts h c
    exact h.constantValue?_eq_some_iff
  · intro hsize
    have hdegree := degree_lt hsize
    refine ⟨hdegree, fun symbols => ?_⟩
    have hset := degreeInSet_le (K := K) p symbols
    omega

/-- Modulo four with a zero at `x ^ 4` and one at the constant term: the degree is that of
`2 * x * y ^ 2`, and the two variables are counted in three ways. Of `3 + 0 * x * y ^ 2` only the constant
is seen. -/
theorem queries_coherent_stored_zeros :
    let four : Modulus := ⟨4, by decide⟩
    let K : CoeffRing (Residue four) := (integersMod four).toCoeffRing
    let x : Symbol := ⟨"x"⟩
    let y : Symbol := ⟨"y"⟩
    let mixed : Monomial := (Monomial.ofSymbol x).withExponent y 2
    let ts : List (Monomial × Residue four) :=
      [(Monomial.one.withExponent x 4, K.zero), (.one, K.zero), (mixed, K.ofInt 2),
        (.ofSymbol y, K.ofInt 2)]
    let us : List (Monomial × Residue four) := [(mixed, K.zero), (.one, K.ofInt 3)]
    let p : Poly (Residue four) := ofStoredTerms ts
    let q : Poly (Residue four) := ofStoredTerms us
    let both : Std.ExtTreeSet Symbol := .ofList [x, y]
    K.Lawful ∧ p.Lists ts ∧ ofTerms K ts ≠ p ∧ SameAnswers K p (ofTerms K ts) ∧
      p.degree K = 3 ∧ p.degree K < 2 ^ 63 ∧ p.degreeIn K y = 2 ∧ (p.degrees K)[y]?.getD 0 = 2 ∧
      p.degreeInSet K {y} ≤ p.degreeInSet K both ∧ p.vars K ≠ ∅ ∧ (p.vars K).size = 2 ∧
      p.varCount K = 2 ∧ (p.degrees K).size = 2 ∧
      q.degree K = 0 ∧ q.isNonzeroConstant K = true ∧ q.constantValue? K = some (K.ofInt 3) ∧
      ofTerms K us = constant K (K.ofInt 3) := by
  intro four K x y mixed ts us p q both
  have hK : K.Lawful := lawful_integersMod four
  have hts : p.Lists ts := lists_ofStoredTerms (by decide +kernel)
  have hus : q.Lists us := lists_ofStoredTerms (by decide +kernel)
  rcases queries_coherent hK p with ⟨hsame, hcoherent, -, hwords⟩
  rcases queries_coherent hK q with ⟨-, hcoherent', hconstant, -⟩
  have hdegree : q.degree K = 0 := by decide +kernel
  have hvalue : q.constantValue? K = some (K.ofInt 3) := by decide +kernel
  have hexponent : p.degreeIn K y = 2 := by decide +kernel
  have hcount : (p.vars K).size = 2 := by decide +kernel
  have hcount' : p.varCount K = 2 := hcoherent.size_vars.symm.trans hcount
  refine ⟨hK, hts, by decide +kernel, hsame ts hts, by decide +kernel, (hwords (by decide +kernel)).1,
    hexponent, (hcoherent.degreeIn_eq y).symm.trans hexponent,
    hcoherent.degreeInSet_mono _ _ ?_, ?_, hcount, hcount', hcoherent.size_degrees.trans hcount',
    hdegree, hcoherent'.isNonzeroConstant_iff_degree.2 hdegree, hvalue, (hconstant us hus _).1 hvalue⟩
  · intro s hs
    have hys : y = s := by simpa using hs
    exact hys ▸ by decide +kernel
  · exact mt hcoherent.isConstant_iff_vars.2 (by decide +kernel)

end Poly

end SymbolicPoly
