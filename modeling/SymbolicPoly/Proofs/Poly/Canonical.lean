import SymbolicPoly.Poly.Substitution
import SymbolicPoly.Proofs.Poly.Coefficient

/-!
# Canonical — polynomials without stored zeros

A canonical polynomial stores no zero coefficient. Canonical polynomials are equal as soon as their
coefficients are (`Canonical.ext_coeff`), and the zero polynomial is the one without terms
(`Canonical.isEmpty_iff`).

Sums, negatives and multiples of canonical polynomials are canonical. The constructors, products,
powers, `substitute` and `compose` make canonical polynomials from any arguments.
-/

namespace SymbolicPoly

namespace Poly

universe u

variable {R : Type u}

/-- No stored coefficient is zero, and no stored monomial lists a symbol with exponent zero. -/
structure Canonical (K : CoeffRing R) (p : Poly R) : Prop where
  coefficient_ne_zero : ∀ {m c}, p.coefficient? m = some c → c ≠ K.zero
  exponent_ne_zero : ∀ {m c}, p.coefficient? m = some c → ∀ f ∈ m.factors, f.2 ≠ 0

/-- Monomials take care of their exponents themselves. -/
theorem canonical_iff_toList {K : CoeffRing R} {p : Poly R} :
    p.Canonical K ↔ ∀ t ∈ p.toList, t.2 ≠ K.zero := by
  constructor
  · rintro h ⟨m, c⟩ ht
    exact h.coefficient_ne_zero (mem_toList_iff.1 ht)
  · intro h
    refine ⟨?_, ?_⟩
    · intro m c hc
      exact h (m, c) (mem_toList_iff.2 hc)
    · intro m c _
      exact m.positive

instance [DecidableEq R] (K : CoeffRing R) (p : Poly R) : Decidable (p.Canonical K) :=
  decidable_of_iff' _ canonical_iff_toList

variable [CommRing R] {K : CoeffRing R} [K.Agrees] {p q r : Poly R}

theorem canonical_iff : p.Canonical K ↔ ∀ {m c}, p.coefficient? m = some c → c ≠ 0 := by
  rw [canonical_iff_toList]
  constructor
  · intro h m c hc
    simpa using h (m, c) (mem_toList_iff.2 hc)
  · rintro h ⟨m, c⟩ ht
    simpa using h (mem_toList_iff.1 ht)

namespace Canonical

theorem coeff_eq_zero_iff (hp : p.Canonical K) (m : Monomial) :
    p.coeff K m = 0 ↔ p.coefficient? m = none := by
  cases hm : p.coefficient? m with
  | none =>
      simp [coeff, hm]
  | some c =>
      simpa [coeff, hm] using canonical_iff.1 hp hm

theorem coefficient?_eq_some_iff (hp : p.Canonical K) {m : Monomial} {c : R} :
    p.coefficient? m = some c ↔ c = p.coeff K m ∧ c ≠ 0 := by
  constructor
  · intro hc
    exact ⟨by simp [coeff, hc], canonical_iff.1 hp hc⟩
  · rintro ⟨rfl, hc⟩
    cases hm : p.coefficient? m with
    | none =>
        exact absurd ((hp.coeff_eq_zero_iff m).2 hm) hc
    | some d =>
        simp [coeff, hm]

theorem ext_coeff (hp : p.Canonical K) (hq : q.Canonical K)
    (h : ∀ m, p.coeff K m = q.coeff K m) : p = q := by
  -- Where one side stores nothing its coefficient is zero, so the other side stores nothing too.
  refine ext_coefficient? fun m => ?_
  have hcoeff := h m
  cases hpm : p.coefficient? m with
  | none =>
      have hzero : q.coeff K m = 0 := hcoeff.symm.trans ((hp.coeff_eq_zero_iff m).2 hpm)
      exact ((hq.coeff_eq_zero_iff m).1 hzero).symm
  | some c =>
      cases hqm : q.coefficient? m with
      | none =>
          have hzero : p.coeff K m = 0 := hcoeff.trans ((hq.coeff_eq_zero_iff m).2 hqm)
          cases hpm.symm.trans ((hp.coeff_eq_zero_iff m).1 hzero)
      | some d =>
          have hcd : c = d := by simpa [coeff, hpm, hqm] using hcoeff
          exact congrArg some hcd

theorem isEmpty_iff (hp : p.Canonical K) :
    p.isEmpty = true ↔ ∀ m, p.coeff K m = 0 := by
  rw [isEmpty_eq_true_iff, eq_empty_iff]
  exact forall_congr' fun m => (hp.coeff_eq_zero_iff m).symm

end Canonical

/-! ## Constructors -/

theorem canonical_empty : (∅ : Poly R).Canonical K :=
  canonical_iff.2 fun {m c} hc => by simp at hc

theorem canonical_ofTerms (ts : List (Monomial × R)) : (ofTerms K ts).Canonical K := by
  refine canonical_iff.2 fun {m c} hc => ?_
  rw [coefficient?_ofTerms, Option.filter_eq_some_iff] at hc
  simpa using hc.2

theorem ofTerms_eq_iff {ts us : List (Monomial × R)} :
    ofTerms K ts = ofTerms K us ↔ ∀ m, listedCoeff ts m = listedCoeff us m := by
  constructor
  · intro h m
    rw [← coeff_ofTerms (K := K) ts, h, coeff_ofTerms]
  · intro h
    refine (canonical_ofTerms ts).ext_coeff (canonical_ofTerms us) fun m => ?_
    rw [coeff_ofTerms, coeff_ofTerms, h m]

theorem ofTerms_perm {ts us : List (Monomial × R)} (h : ts.Perm us) :
    ofTerms K ts = ofTerms K us :=
  ofTerms_eq_iff.2 (listedCoeff_perm h)

/-- The monomials that are stored come from the list. -/
theorem exists_of_mem_toList_ofTerms {ts : List (Monomial × R)} {t : Monomial × R}
    (h : t ∈ (ofTerms K ts).toList) : ∃ u ∈ ts, u.1 = t.1 := by
  have hstored : (ofTerms K ts).coefficient? t.1 = some t.2 := mem_toList_iff.1 h
  by_contra hnone
  have hkey : t.1 ∉ ts.map Prod.fst := fun hmem => hnone (List.mem_map.1 hmem)
  -- Without a term in the list the coefficient is zero, and zeros are not stored.
  have hzero : (ofTerms K ts).coeff K t.1 = 0 := by rw [coeff_ofTerms, listedCoeff_eq_zero hkey]
  cases hstored.symm.trans (((canonical_ofTerms ts).coeff_eq_zero_iff t.1).1 hzero)

theorem canonical_monomial (m : Monomial) (c : R) : (monomial K m c).Canonical K := by
  refine canonical_iff.2 fun {m' d} hd => ?_
  rw [coefficient?_monomial] at hd
  split_ifs at hd with hzero hm
  cases hd
  simpa using hzero

/-! ## Sums -/

namespace Canonical

theorem addCoefficient (hp : p.Canonical K) {c : R} (hc : c ≠ 0) (m : Monomial) :
    (p.addCoefficient K m c).Canonical K := by
  refine canonical_iff.2 fun {m' d} hd => ?_
  rw [coefficient?_addCoefficient] at hd
  split_ifs at hd with hm
  · -- Either the coefficient is new, or a sum that has been tested is stored.
    cases hstored : p.coefficient? m with
    | none =>
        have hcd : c = d := by simpa [hstored] using hd
        exact hcd ▸ hc
    | some e =>
        simp only [hstored] at hd
        split_ifs at hd with hzero
        cases hd
        simpa using hzero
  · exact canonical_iff.1 hp hd

theorem foldl_addCoefficient (hp : p.Canonical K) {ts : List (Monomial × R)}
    (hts : ∀ t ∈ ts, t.2 ≠ 0) :
    (ts.foldl (fun acc t => Poly.addCoefficient K acc t.1 t.2) p).Canonical K := by
  induction ts generalizing p with
  | nil =>
      exact hp
  | cons t ts ih =>
      have hcons := List.forall_mem_cons.1 hts
      exact ih (hp.addCoefficient hcons.1 t.1) hcons.2

theorem toList_ne_zero (hp : p.Canonical K) : ∀ t ∈ p.toList, t.2 ≠ 0 := by
  intro t ht
  simpa using canonical_iff_toList.1 hp t ht

theorem add (hp : p.Canonical K) (hq : q.Canonical K) : (p.add K q).Canonical K := by
  unfold Poly.add
  split_ifs
  · exact hp.foldl_addCoefficient hq.toList_ne_zero
  · exact hq.foldl_addCoefficient hp.toList_ne_zero

theorem addTerm (hp : p.Canonical K) (m : Monomial) (c : R) : (p.addTerm K m c).Canonical K := by
  unfold Poly.addTerm
  split_ifs with hzero
  · exact hp
  · exact hp.addCoefficient (by simpa using hzero) m

theorem neg (hp : p.Canonical K) : (p.neg K).Canonical K := by
  refine canonical_iff.2 fun {m c} hc => ?_
  rw [coefficient?_neg, Option.map_eq_some_iff] at hc
  rcases hc with ⟨d, hd, rfl⟩
  simpa using canonical_iff.1 hp hd

theorem sub (hp : p.Canonical K) (hq : q.Canonical K) : (p.sub K q).Canonical K := by
  rw [sub_eq_foldl]
  refine hp.foldl_addCoefficient ?_
  intro t ht
  rcases List.mem_map.1 ht with ⟨u, hu, rfl⟩
  simpa using hq.toList_ne_zero u hu

/-! ## Products that keep their terms -/

theorem scale (hp : p.Canonical K) (c : R) : (p.scale K c).Canonical K := by
  refine canonical_iff.2 fun {m d} hd => ?_
  rw [coefficient?_scale] at hd
  split_ifs at hd
  · exact canonical_iff.1 hp hd
  · rcases Option.bind_eq_some_iff.1 hd with ⟨a, -, hproduct⟩
    split_ifs at hproduct with hzero
    cases hproduct
    simpa using hzero

theorem mulSymbol (hp : p.Canonical K) {s : Symbol} (h : p.mulSymbol s = .ok q) :
    q.Canonical K := by
  rcases Outcome.map_eq_ok_iff.1 h with ⟨us, hus, rfl⟩
  have hnodup := nodup_keys_mulTermSymbol hus (nodup_keys_toList p)
  refine canonical_iff.2 fun {m c} hc => ?_
  have hmem := (coefficient?_ofStoredTerms_eq_some_iff hnodup).1 hc
  -- The coefficient was stored in `p`, at the monomial with one factor less.
  rcases Outcome.exists_of_mem_mapM hus hmem with ⟨t, ht, htu⟩
  have hcoeff : c = t.2 := (mulTermSymbol_eq_ok htu).2
  exact hcoeff ▸ hp.toList_ne_zero t ht

end Canonical

/-! ## Results that are canonical for all arguments -/

theorem canonical_mul (h : p.mul K q = .ok r) : r.Canonical K := by
  -- Products are collected and tested at the end, whatever was multiplied.
  rcases Outcome.map_eq_ok_iff.1 h with ⟨products, -, rfl⟩
  exact canonical_ofTerms products

theorem canonical_one : (one K).Canonical K :=
  canonical_monomial .one K.one

theorem canonical_pow {n : Nat} (h : p.pow K n = .ok r) : r.Canonical K :=
  repeatOpM_ok_of_op canonical_mul canonical_one h

theorem canonical_substitute (p : Poly R) (values : Assignment R) :
    (p.substitute K values).Canonical K :=
  canonical_ofTerms _

theorem canonical_composeTerm {values : Assignment (Poly R)} {t : Monomial × R}
    (h : composeTerm K values t = .ok r) : r.Canonical K := by
  rcases Outcome.bind_eq_ok_iff.1 h with ⟨image, -, hmul⟩
  exact canonical_mul hmul

theorem canonical_compose {values : Assignment (Poly R)} (h : p.compose K values = .ok r) :
    r.Canonical K := by
  refine Outcome.foldlM_ok_induction (motive := fun _ acc => acc.Canonical K) canonical_empty ?_ h
  intro done t acc next hacc hnext
  rcases Outcome.bind_eq_ok_iff.1 hnext with ⟨term, hterm, hsum⟩
  cases hsum
  exact hacc.add (canonical_composeTerm hterm)

end Poly

end SymbolicPoly
