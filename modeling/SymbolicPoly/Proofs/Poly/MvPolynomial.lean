import Mathlib.Algebra.MvPolynomial.CommRing
import SymbolicPoly.Proofs.Monomial.Finsupp
import SymbolicPoly.Proofs.Poly.Canonical

/-!
# Polynomials as Mathlib's multivariate polynomials

`Poly.toMvPolynomial` sums the stored terms in `MvPolynomial Symbol R`, where exponents are not
bounded. Two polynomials have the same image exactly if all their coefficients agree
(`toMvPolynomial_eq_iff`), so canonical polynomials with the same image are equal. The operations
become those of the ring `MvPolynomial Symbol R`. Where an operation can fail, the equation is about
the result that it returned.
-/

namespace SymbolicPoly

universe u v

namespace Poly

variable {R : Type u} [CommRing R]

noncomputable section

/-! ## Sums of terms -/

/-- The sum of a list of terms. -/
def termSum (ts : List (Monomial × R)) : MvPolynomial Symbol R :=
  (ts.map fun t => MvPolynomial.monomial t.1.toFinsupp t.2).sum

@[simp]
theorem termSum_nil : termSum ([] : List (Monomial × R)) = 0 :=
  rfl

@[simp]
theorem termSum_cons (t : Monomial × R) (ts : List (Monomial × R)) :
    termSum (t :: ts) = MvPolynomial.monomial t.1.toFinsupp t.2 + termSum ts := by
  simp [termSum]

@[simp]
theorem termSum_append (ts us : List (Monomial × R)) :
    termSum (ts ++ us) = termSum ts + termSum us := by
  simp [termSum]

/-- Changing each term as an additive map changes its monomial. -/
theorem termSum_map {S : Type v} [CommRing S]
    (φ : MvPolynomial Symbol R →+ MvPolynomial Symbol S) {g : Monomial × R → Monomial × S}
    {ts : List (Monomial × R)} (h : ∀ t ∈ ts, MvPolynomial.monomial (g t).1.toFinsupp (g t).2 =
      φ (MvPolynomial.monomial t.1.toFinsupp t.2)) :
    termSum (ts.map g) = φ (termSum ts) := by
  induction ts with
  | nil =>
      simp
  | cons t ts ih =>
      have hsplit := List.forall_mem_cons.1 h
      simp [ih hsplit.2, hsplit.1]

theorem termSum_map_neg (ts : List (Monomial × R)) :
    termSum (ts.map fun t => (t.1, -t.2)) = -termSum ts :=
  termSum_map negAddMonoidHom (by simp)

theorem coeff_termSum (ts : List (Monomial × R)) (m : Monomial) :
    (termSum ts).coeff m.toFinsupp = listedCoeff ts m := by
  induction ts with
  | nil =>
      simp
  | cons t ts ih =>
      simp [ih, MvPolynomial.coeff_monomial]

theorem coeff_termSum_eq_zero (ts : List (Monomial × R)) {d : Symbol →₀ Nat}
    (h : ∀ m : Monomial, m.toFinsupp ≠ d) : (termSum ts).coeff d = 0 := by
  induction ts with
  | nil =>
      simp
  | cons t ts ih =>
      simp [ih, MvPolynomial.coeff_monomial, h t.1]

theorem termSum_eq_iff {ts us : List (Monomial × R)} :
    termSum ts = termSum us ↔ ∀ m, listedCoeff ts m = listedCoeff us m := by
  constructor
  · intro h m
    rw [← coeff_termSum, h, coeff_termSum]
  · intro h
    ext d
    -- Exponents that belong to no monomial occur on neither side.
    by_cases hd : ∃ m : Monomial, m.toFinsupp = d
    · rcases hd with ⟨m, rfl⟩
      rw [coeff_termSum, coeff_termSum, h m]
    · have hne : ∀ m : Monomial, m.toFinsupp ≠ d := not_exists.1 hd
      rw [coeff_termSum_eq_zero ts hne, coeff_termSum_eq_zero us hne]

/-! ## The image of a polynomial -/

def toMvPolynomial (p : Poly R) : MvPolynomial Symbol R :=
  termSum p.toList

theorem toMvPolynomial_ofStoredTerms {ts : List (Monomial × R)} (h : (ts.map Prod.fst).Nodup) :
    (ofStoredTerms ts).toMvPolynomial = termSum ts :=
  ((toList_ofStoredTerms_perm h).map _).sum_eq

@[simp]
theorem toMvPolynomial_empty : (∅ : Poly R).toMvPolynomial = 0 := by
  simp [toMvPolynomial, toList_empty]

variable {K : CoeffRing R} [K.Agrees]

theorem coeff_toMvPolynomial (p : Poly R) (m : Monomial) :
    p.toMvPolynomial.coeff m.toFinsupp = p.coeff K m :=
  (coeff_termSum p.toList m).trans (coeff_eq_listedCoeff_toList p m).symm

theorem coeff_eq_of_toMvPolynomial_eq {p : Poly R} {f : MvPolynomial Symbol R}
    (h : p.toMvPolynomial = f) (m : Monomial) : p.coeff K m = f.coeff m.toFinsupp := by
  calc
    p.coeff K m = p.toMvPolynomial.coeff m.toFinsupp := (coeff_toMvPolynomial p m).symm
    _ = f.coeff m.toFinsupp := by rw [h]

theorem toMvPolynomial_eq_termSum {p : Poly R} {ts : List (Monomial × R)}
    (h : ∀ m, p.coeff K m = listedCoeff ts m) : p.toMvPolynomial = termSum ts := by
  refine termSum_eq_iff.2 fun m => ?_
  rw [← coeff_eq_listedCoeff_toList (K := K) p m, h m]

theorem toMvPolynomial_eq_iff {p q : Poly R} :
    p.toMvPolynomial = q.toMvPolynomial ↔ ∀ m, p.coeff K m = q.coeff K m := by
  simp only [coeff_eq_listedCoeff_toList]
  exact termSum_eq_iff

theorem Canonical.ext_toMvPolynomial {p q : Poly R} (hp : p.Canonical K) (hq : q.Canonical K)
    (h : p.toMvPolynomial = q.toMvPolynomial) : p = q :=
  hp.ext_coeff hq ((toMvPolynomial_eq_iff (K := K)).1 h)

theorem Canonical.toMvPolynomial_inj {p q : Poly R} (hp : p.Canonical K) (hq : q.Canonical K) :
    p.toMvPolynomial = q.toMvPolynomial ↔ p = q := by
  constructor
  · exact hp.ext_toMvPolynomial hq
  · rintro rfl
    rfl

@[simp]
theorem toMvPolynomial_ofTerms (ts : List (Monomial × R)) :
    (ofTerms K ts).toMvPolynomial = termSum ts :=
  toMvPolynomial_eq_termSum (coeff_ofTerms (K := K) ts)

@[simp]
theorem toMvPolynomial_monomial (m : Monomial) (c : R) :
    (monomial K m c).toMvPolynomial = MvPolynomial.monomial m.toFinsupp c := by
  have hterm : (monomial K m c).toMvPolynomial = termSum [(m, c)] :=
    toMvPolynomial_eq_termSum (K := K) fun m' => by simp [coeff_monomial]
  simpa using hterm

@[simp]
theorem toMvPolynomial_constant (c : R) :
    (constant K c).toMvPolynomial = MvPolynomial.C c := by
  simp [constant, toMvPolynomial_monomial]

@[simp]
theorem toMvPolynomial_one : (one K).toMvPolynomial = 1 := by
  simp [one, toMvPolynomial_constant]

@[simp]
theorem toMvPolynomial_symbol (s : Symbol) :
    (symbol K s).toMvPolynomial = MvPolynomial.X s := by
  simp [symbol, toMvPolynomial_monomial, MvPolynomial.X]

/-! ## Operations -/

@[simp]
theorem toMvPolynomial_add (p q : Poly R) :
    (p.add K q).toMvPolynomial = p.toMvPolynomial + q.toMvPolynomial := by
  have happend : (p.add K q).toMvPolynomial = termSum (p.toList ++ q.toList) := by
    refine toMvPolynomial_eq_termSum (K := K) fun m => ?_
    rw [coeff_add, coeff_eq_listedCoeff_toList p, coeff_eq_listedCoeff_toList q]
    simp [listedCoeff]
  simpa [toMvPolynomial] using happend

@[simp]
theorem toMvPolynomial_neg (p : Poly R) : (p.neg K).toMvPolynomial = -p.toMvPolynomial := by
  have hterms : (p.neg K).toMvPolynomial = termSum (p.toList.map fun t => (t.1, -t.2)) := by
    refine toMvPolynomial_eq_termSum (K := K) fun m => ?_
    rw [coeff_neg, listedCoeff_map_neg, coeff_eq_listedCoeff_toList]
  calc
    (p.neg K).toMvPolynomial = termSum (p.toList.map fun t => (t.1, -t.2)) := hterms
    _ = -p.toMvPolynomial := termSum_map_neg p.toList

@[simp]
theorem toMvPolynomial_sub (p q : Poly R) :
    (p.sub K q).toMvPolynomial = p.toMvPolynomial - q.toMvPolynomial := by
  have hneg : (p.sub K q).toMvPolynomial = (p.add K (q.neg K)).toMvPolynomial := by
    refine (toMvPolynomial_eq_iff (K := K)).2 fun m => ?_
    rw [coeff_sub, coeff_add, coeff_neg, sub_eq_add_neg]
  calc
    (p.sub K q).toMvPolynomial = (p.add K (q.neg K)).toMvPolynomial := hneg
    _ = p.toMvPolynomial + -q.toMvPolynomial := by simp
    _ = p.toMvPolynomial - q.toMvPolynomial := (sub_eq_add_neg _ _).symm

@[simp]
theorem toMvPolynomial_addTerm (p : Poly R) (m : Monomial) (c : R) :
    (p.addTerm K m c).toMvPolynomial =
      p.toMvPolynomial + MvPolynomial.monomial m.toFinsupp c := by
  have hmonomial : (p.addTerm K m c).toMvPolynomial = (p.add K (monomial K m c)).toMvPolynomial := by
    refine (toMvPolynomial_eq_iff (K := K)).2 fun m' => ?_
    rw [coeff_addTerm, coeff_add, coeff_monomial]
  calc
    (p.addTerm K m c).toMvPolynomial = (p.add K (monomial K m c)).toMvPolynomial := hmonomial
    _ = p.toMvPolynomial + MvPolynomial.monomial m.toFinsupp c := by simp

/-! ## Products -/

@[simp]
theorem toMvPolynomial_scale (p : Poly R) (c : R) :
    (p.scale K c).toMvPolynomial = p.toMvPolynomial * MvPolynomial.C c := by
  ext d
  by_cases hd : ∃ m : Monomial, m.toFinsupp = d
  · rcases hd with ⟨m, rfl⟩
    rw [mul_comm, MvPolynomial.coeff_C_mul, coeff_toMvPolynomial (K := K),
      coeff_toMvPolynomial (K := K), coeff_scale, mul_comm]
  · have hne : ∀ m : Monomial, m.toFinsupp ≠ d := not_exists.1 hd
    rw [mul_comm, MvPolynomial.coeff_C_mul]
    simp [toMvPolynomial, coeff_termSum_eq_zero _ hne]

theorem termSum_mulTermSymbol {s : Symbol} {ts us : List (Monomial × R)}
    (h : ts.mapM (mulTermSymbol s) = .ok us) : termSum us = termSum ts * MvPolynomial.X s := by
  induction Outcome.mapM_eq_ok_iff.1 h with
  | nil =>
      simp
  | cons hhead htail ih =>
      rcases mulTermSymbol_eq_ok hhead with ⟨hmonomial, hcoeff⟩
      simp [hmonomial, hcoeff, ih (Outcome.mapM_eq_ok_iff.2 htail), add_mul, MvPolynomial.X,
        MvPolynomial.monomial_mul]

theorem toMvPolynomial_mulSymbol {p q : Poly R} {s : Symbol} (h : p.mulSymbol s = .ok q) :
    q.toMvPolynomial = p.toMvPolynomial * MvPolynomial.X s := by
  rcases Outcome.map_eq_ok_iff.1 h with ⟨us, hus, rfl⟩
  -- The keys stay distinct, so no term overwrites another.
  have hnodup : (us.map Prod.fst).Nodup := nodup_keys_mulTermSymbol hus (nodup_keys_toList p)
  calc
    (ofStoredTerms us).toMvPolynomial = termSum us := toMvPolynomial_ofStoredTerms hnodup
    _ = p.toMvPolynomial * MvPolynomial.X s := termSum_mulTermSymbol hus

theorem mulTerm_eq_ok {t t' u : Monomial × R} (h : mulTerm K t t' = .ok u) :
    MvPolynomial.monomial u.1.toFinsupp u.2 =
      MvPolynomial.monomial t.1.toFinsupp t.2 * MvPolynomial.monomial t'.1.toFinsupp t'.2 := by
  rcases Outcome.map_eq_ok_iff.1 h with ⟨m, hm, rfl⟩
  simp [Monomial.mul_eq_ok_iff_toFinsupp.1 hm, MvPolynomial.monomial_mul]

theorem termSum_mulTerm {t : Monomial × R} {ts us : List (Monomial × R)}
    (h : ts.mapM (mulTerm K t) = .ok us) :
    termSum us = MvPolynomial.monomial t.1.toFinsupp t.2 * termSum ts := by
  induction Outcome.mapM_eq_ok_iff.1 h with
  | nil =>
      simp
  | cons hhead htail ih =>
      simp [mulTerm_eq_ok hhead, ih (Outcome.mapM_eq_ok_iff.2 htail), mul_add]

/-- Multiplying each term with each term multiplies the sums. -/
theorem termSum_termProducts {ts us products : List (Monomial × R)}
    (h : termProducts K ts us = .ok products) : termSum products = termSum ts * termSum us := by
  rcases Outcome.map_eq_ok_iff.1 h with ⟨rows, hrows, rfl⟩
  -- Each row is one term of the left side times the whole right side.
  induction Outcome.mapM_eq_ok_iff.1 hrows with
  | nil =>
      simp
  | cons hhead htail ih =>
      have hrows := Outcome.mapM_eq_ok_iff.2 htail
      have hrest := ih hrows (Outcome.map_eq_ok_iff.2 ⟨_, hrows, rfl⟩)
      simp [termSum_mulTerm hhead, hrest, add_mul]

theorem toMvPolynomial_mul {p q r : Poly R} (h : p.mul K q = .ok r) :
    r.toMvPolynomial = p.toMvPolynomial * q.toMvPolynomial := by
  rcases Outcome.map_eq_ok_iff.1 h with ⟨products, hproducts, rfl⟩
  exact (toMvPolynomial_ofTerms products).trans (termSum_termProducts hproducts)

theorem toMvPolynomial_pow {p r : Poly R} {n : Nat} (h : p.pow K n = .ok r) :
    r.toMvPolynomial = p.toMvPolynomial ^ n := by
  have hpower := view_repeatOpM toMvPolynomial toMvPolynomial_mul h
  simpa [toMvPolynomial_one] using hpower

end

end Poly

end SymbolicPoly
