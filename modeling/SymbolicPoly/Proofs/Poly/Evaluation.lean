import Mathlib.Algebra.MvPolynomial.Eval
import Mathlib.Algebra.MvPolynomial.Supported
import SymbolicPoly.Poly.Substitution
import SymbolicPoly.Proofs.Poly.Variables

/-!
# Evaluation — the value of a polynomial at a point

A point that gives a value to every symbol of the stored monomials gives one to the polynomial: that
of `MvPolynomial.eval` (`evaluate_eq_ok`). The order in which the terms are added up does not matter.
No other point does (`mem_of_evaluate_eq_ok`).

For a canonical polynomial it is enough that its variables have values (`Canonical.evaluate_eq_ok`).
Then so have the results of arithmetic on such polynomials, and their values are those of the
arguments, combined.
-/

namespace SymbolicPoly

universe u

namespace Assignment

variable {α : Type u} {values : Assignment α} {s : Symbol}

theorem mem_iff_exists_eq_some : s ∈ values ↔ ∃ a, values[s]? = some a :=
  Std.ExtTreeMap.mem_iff_isSome_getElem?.trans Option.isSome_iff_exists

theorem mem_of_eq_some {a : α} (h : values[s]? = some a) : s ∈ values :=
  mem_iff_exists_eq_some.2 ⟨a, h⟩

theorem not_mem_of_eq_none (h : values[s]? = none) : s ∉ values := by
  intro hs
  rcases mem_iff_exists_eq_some.1 hs with ⟨a, ha⟩
  cases h.symm.trans ha

/-- Finitely many symbols can be given any values. -/
theorem exists_forall_mem (f : Symbol → α) (symbols : List Symbol) :
    ∃ values : Assignment α, ∀ s ∈ symbols, values[s]? = some (f s) := by
  induction symbols with
  | nil =>
      exact ⟨∅, fun s hs => nomatch hs⟩
  | cons t symbols ih =>
      rcases ih with ⟨values, hvalues⟩
      refine ⟨values.insert t (f t), ?_⟩
      intro s hs
      rw [Std.ExtTreeMap.getElem?_insert]
      split
      next heq =>
        have hts : t = s := Std.LawfulEqCmp.eq_of_compare heq
        rw [hts]
      next hne =>
        have hst : s ≠ t := by
          rintro rfl
          exact hne Std.ReflCmp.compare_self
        exact hvalues s (List.mem_of_ne_of_mem hst hs)

/-- The value of a symbol, zero if it has none. -/
def valueAt [Zero α] (point : Assignment α) (s : Symbol) : α :=
  point[s]?.getD 0

theorem valueAt_of_eq_some [Zero α] {point : Assignment α} {a : α} (h : point[s]? = some a) :
    point.valueAt s = a :=
  congrArg (fun value => value.getD 0) h

end Assignment

theorem Monomial.factors_unassigned {α : Type u} (m : Monomial) (values : Assignment α) :
    (m.unassigned values).factors = m.factors.filter fun f => !decide (f.1 ∈ values) := by
  refine List.filter_congr ?_
  intro f _
  have hcontains : values.contains f.1 = decide (f.1 ∈ values) := Bool.eq_iff_iff.2 (by simp)
  exact congrArg Bool.not hcontains

namespace Poly

variable {R : Type u} [CommRing R] {K : CoeffRing R} [K.Agrees] {point : Assignment R}

theorem foldlM_factors_eq_ok {fs : List (Symbol × UInt32)} (h : ∀ f ∈ fs, f.1 ∈ point) (c : R) :
    fs.foldlM
        (fun value f =>
          match point[f.1]? with
          | some x => (.ok (K.mul value (K.pow x f.2.toNat)) : Except UnboundVariable R)
          | none => .error ⟨f.1⟩)
        c =
      .ok (c * (fs.map fun f => point.valueAt f.1 ^ f.2.toNat).prod) := by
  induction fs generalizing c with
  | nil =>
      simp [pure, Except.pure]
  | cons f fs ih =>
      have hcons := List.forall_mem_cons.1 h
      rcases Assignment.mem_iff_exists_eq_some.1 hcons.1 with ⟨x, hx⟩
      rw [List.foldlM_cons, hx]
      refine (ih hcons.2 _).trans ?_
      simp [Assignment.valueAt_of_eq_some hx, mul_assoc]

theorem evaluateTerm_eq_ok {t : Monomial × R} (h : ∀ s ∈ t.1.vars, s ∈ point) :
    evaluateTerm K point t =
      .ok (MvPolynomial.eval point.valueAt (MvPolynomial.monomial t.1.toFinsupp t.2)) := by
  have hfactors : ∀ f ∈ t.1.factors, f.1 ∈ point := by
    intro f hf
    exact h f.1 (Monomial.mem_vars_of_mem hf)
  refine (foldlM_factors_eq_ok hfactors t.2).trans (congrArg Except.ok ?_)
  rw [MvPolynomial.eval_monomial, Monomial.prod_toFinsupp]

theorem foldlM_evaluateTerm_eq_ok {ts : List (Monomial × R)}
    (h : ∀ t ∈ ts, ∀ s ∈ t.1.vars, s ∈ point) (sum : R) :
    ts.foldlM (fun sum t => do return K.add sum (← evaluateTerm K point t)) sum =
      .ok (sum + MvPolynomial.eval point.valueAt (termSum ts)) := by
  induction ts generalizing sum with
  | nil =>
      simp [pure, Except.pure]
  | cons t ts ih =>
      have hcons := List.forall_mem_cons.1 h
      rw [List.foldlM_cons, evaluateTerm_eq_ok hcons.1]
      refine (ih hcons.2 _).trans ?_
      simp [add_assoc]

theorem evaluate_eq_ok {p : Poly R} (h : ∀ t ∈ p.toList, ∀ s ∈ t.1.vars, s ∈ point) :
    p.evaluate K point = .ok (MvPolynomial.eval point.valueAt p.toMvPolynomial) := by
  have hperm := gradedTerms_perm p
  have hgraded : ∀ t ∈ p.gradedTerms, ∀ s ∈ t.1.vars, s ∈ point := by
    intro t ht
    exact h t (hperm.mem_iff.1 ht)
  have hsum : termSum p.gradedTerms = p.toMvPolynomial := (hperm.map _).sum_eq
  -- The values are added up in graded order, which gives the same sum.
  refine (foldlM_evaluateTerm_eq_ok hgraded K.zero).trans ?_
  simp [hsum]

theorem Canonical.evaluate_eq_ok {p : Poly R} (hp : p.Canonical K)
    (h : ∀ s ∈ p.vars K, s ∈ point) :
    p.evaluate K point = .ok (MvPolynomial.eval point.valueAt p.toMvPolynomial) := by
  refine Poly.evaluate_eq_ok ?_
  intro t ht s hs
  exact h s (hp.mem_vars_iff.2 ⟨t, ht, hs⟩)

/-! ## Points at which there is a value -/

omit [CommRing R] [K.Agrees] in
theorem mem_of_evaluateTerm_eq_ok {t : Monomial × R} {x : R} (h : evaluateTerm K point t = .ok x) :
    ∀ s ∈ t.1.vars, s ∈ point := by
  have hfactors : ∀ f ∈ t.1.factors, f.1 ∈ point := by
    refine Outcome.foldlM_ok_induction (motive := fun done _ => ∀ f ∈ done, f.1 ∈ point)
      (fun f hf => nomatch hf) ?_ h
    intro done f value next hdone hnext g hg
    rcases List.mem_append.1 hg with hg | hg
    · exact hdone g hg
    · -- The factor that has just been read would have stopped the loop without a value.
      cases List.mem_singleton.1 hg
      cases hvalue : point[f.1]? with
      | none =>
          simp [hvalue] at hnext
      | some y =>
          exact Assignment.mem_of_eq_some hvalue
  intro s hs
  rcases List.mem_map.1 hs with ⟨f, hf, rfl⟩
  exact hfactors f hf

omit [CommRing R] [K.Agrees] in
/-- A value says that no stored monomial has a symbol without one, not even beside a zero. -/
theorem mem_of_evaluate_eq_ok {p : Poly R} {x : R} (h : p.evaluate K point = .ok x) :
    ∀ t ∈ p.toList, ∀ s ∈ t.1.vars, s ∈ point := by
  have hgraded : ∀ t ∈ p.gradedTerms, ∀ s ∈ t.1.vars, s ∈ point := by
    refine Outcome.foldlM_ok_induction
      (motive := fun done _ => ∀ t ∈ done, ∀ s ∈ t.1.vars, s ∈ point) (fun t ht => nomatch ht) ?_ h
    intro done t sum next hdone hnext u hu
    rcases List.mem_append.1 hu with hu | hu
    · exact hdone u hu
    · cases List.mem_singleton.1 hu
      rcases Outcome.bind_eq_ok_iff.1 hnext with ⟨y, hy, -⟩
      exact mem_of_evaluateTerm_eq_ok hy
  intro t ht
  exact hgraded t ((gradedTerms_perm p).mem_iff.2 ht)

/-! ## Values of results

Polynomials in the symbols of a point form a subring, so the variables of a result need not be known
exactly to see that it has a value.
-/

variable {p q r : Poly R}

theorem mem_supported_iff {symbols : Set Symbol} :
    p.toMvPolynomial ∈ MvPolynomial.supported R symbols ↔ ∀ s ∈ p.vars K, s ∈ symbols := by
  rw [MvPolynomial.mem_supported]
  simp only [Set.subset_def, Finset.mem_coe, mem_vars_toMvPolynomial_iff (K := K)]

theorem Canonical.evaluate_of_mem_supported (hr : r.Canonical K) {f : MvPolynomial Symbol R}
    (h : r.toMvPolynomial = f) (hf : f ∈ MvPolynomial.supported R {s | s ∈ point}) :
    r.evaluate K point = .ok (MvPolynomial.eval point.valueAt f) := by
  subst h
  exact hr.evaluate_eq_ok (mem_supported_iff.1 hf)

theorem Canonical.evaluate_add (hp : p.Canonical K) (hq : q.Canonical K)
    (hps : ∀ s ∈ p.vars K, s ∈ point) (hqs : ∀ s ∈ q.vars K, s ∈ point) :
    (p.add K q).evaluate K point = .ok (MvPolynomial.eval point.valueAt p.toMvPolynomial +
      MvPolynomial.eval point.valueAt q.toMvPolynomial) := by
  rw [← map_add]
  exact (hp.add hq).evaluate_of_mem_supported (toMvPolynomial_add p q)
    (add_mem (mem_supported_iff.2 hps) (mem_supported_iff.2 hqs))

theorem Canonical.evaluate_sub (hp : p.Canonical K) (hq : q.Canonical K)
    (hps : ∀ s ∈ p.vars K, s ∈ point) (hqs : ∀ s ∈ q.vars K, s ∈ point) :
    (p.sub K q).evaluate K point = .ok (MvPolynomial.eval point.valueAt p.toMvPolynomial -
      MvPolynomial.eval point.valueAt q.toMvPolynomial) := by
  rw [← map_sub]
  exact (hp.sub hq).evaluate_of_mem_supported (toMvPolynomial_sub p q)
    (sub_mem (mem_supported_iff.2 hps) (mem_supported_iff.2 hqs))

theorem Canonical.evaluate_neg (hp : p.Canonical K) (hps : ∀ s ∈ p.vars K, s ∈ point) :
    (p.neg K).evaluate K point =
      .ok (-MvPolynomial.eval point.valueAt p.toMvPolynomial) := by
  rw [← map_neg]
  exact hp.neg.evaluate_of_mem_supported (toMvPolynomial_neg p)
    (neg_mem (mem_supported_iff.2 hps))

theorem evaluate_mul (h : p.mul K q = .ok r) (hps : ∀ s ∈ p.vars K, s ∈ point)
    (hqs : ∀ s ∈ q.vars K, s ∈ point) :
    r.evaluate K point = .ok (MvPolynomial.eval point.valueAt p.toMvPolynomial *
      MvPolynomial.eval point.valueAt q.toMvPolynomial) := by
  rw [← map_mul]
  exact (canonical_mul h).evaluate_of_mem_supported (toMvPolynomial_mul h)
    (mul_mem (mem_supported_iff.2 hps) (mem_supported_iff.2 hqs))

theorem evaluate_pow {n : Nat} (h : p.pow K n = .ok r) (hps : ∀ s ∈ p.vars K, s ∈ point) :
    r.evaluate K point = .ok (MvPolynomial.eval point.valueAt p.toMvPolynomial ^ n) := by
  rw [← map_pow]
  exact (canonical_pow h).evaluate_of_mem_supported (toMvPolynomial_pow h)
    (pow_mem (mem_supported_iff.2 hps) n)

end Poly

end SymbolicPoly
