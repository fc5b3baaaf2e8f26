import SymbolicPoly.Proofs.Poly.Evaluation
import SymbolicPoly.Proofs.Poly.TermSequence
import SymbolicPoly.Proofs.Ring.Modular

/-!
# Unbound — which symbol an evaluation misses

An evaluation fails as soon as a stored monomial has a symbol without a value, even beside a zero
coefficient. Monomials are gone through in graded order and their symbols in ascending order, so the one
that is reported is the first unbound symbol of the first monomial that has one
(`evaluate_eq_error_iff`). The order in which the terms are met does not show, neither in this symbol
nor in the value that is returned otherwise (`Lists.evaluate_eq_ok_sum`).
-/

namespace SymbolicPoly

universe u

variable {R : Type u}

/-- The smallest symbol of `m` to which nothing is assigned is `s`. -/
structure Monomial.FirstUnbound (point : Assignment R) (m : Monomial) (s : Symbol) : Prop where
  mem_vars : s ∈ m.vars
  unbound : s ∉ point
  bound_of_lt : ∀ u ∈ m.vars, u < s → u ∈ point

namespace Poly

variable {K : CoeffRing R} {point larger : Assignment R} {p : Poly R} {ts : List (Monomial × R)}
  {t : Monomial × R} {e : UnboundVariable}

/-! ## The symbol that is reported -/

theorem factor_eq_error_iff (value : R) (f : Symbol × UInt32) (e : UnboundVariable) :
    (match point[f.1]? with
      | some x => (.ok (K.mul value (K.pow x f.2.toNat)) : Except UnboundVariable R)
      | none => .error ⟨f.1⟩) = .error e ↔ f.1 ∉ point ∧ e = ⟨f.1⟩ := by
  cases hvalue : point[f.1]? with
  | none =>
      simp [Assignment.not_mem_of_eq_none hvalue, eq_comm]
  | some x =>
      simp [Assignment.mem_of_eq_some hvalue]

/-- The factors are in the order of their symbols, so the first one that fails has the smallest. -/
theorem evaluateTerm_eq_error_iff :
    evaluateTerm K point t = .error e ↔ t.1.FirstUnbound point e.symbol := by
  refine (Outcome.foldlM_eq_error_iff factor_eq_error_iff
    (fun h => Std.OrientedCmp.not_lt_of_lt h) t.1.sorted).trans ?_
  constructor
  · rintro ⟨f, hf, ⟨hunbound, rfl⟩, hnone⟩
    refine ⟨Monomial.mem_vars_of_mem hf, hunbound, fun u hu hlt => ?_⟩
    rcases List.mem_map.1 hu with ⟨g, hg, rfl⟩
    by_contra hgu
    exact hnone g hg (compare_lt_iff_lt.2 hlt) ⟨g.1⟩ ⟨hgu, rfl⟩
  · rintro ⟨hs, hunbound, hbound⟩
    rcases List.mem_map.1 hs with ⟨f, hf, hfs⟩
    refine ⟨f, hf, ⟨hfs ▸ hunbound, congrArg UnboundVariable.mk hfs.symm⟩, ?_⟩
    rintro g hg hlt e' ⟨hgu, -⟩
    exact hgu (hbound g.1 (Monomial.mem_vars_of_mem hg) (hfs ▸ compare_lt_iff_lt.1 hlt))

theorem exists_evaluateTerm_eq_error_iff :
    (∃ e, evaluateTerm K point t = .error e) ↔ ∃ s ∈ t.1.vars, s ∉ point := by
  constructor
  · rintro ⟨e, he⟩
    have hfirst := evaluateTerm_eq_error_iff.1 he
    exact ⟨e.symbol, hfirst.mem_vars, hfirst.unbound⟩
  · rintro ⟨s, hs, hunbound⟩
    rw [Outcome.exists_eq_error_iff]
    rintro ⟨x, hx⟩
    exact hunbound (mem_of_evaluateTerm_eq_ok hx s hs)

/-- The symbol is that of the first monomial in graded order that has an unbound one. -/
theorem evaluate_eq_error_iff :
    p.evaluate K point = .error e ↔
      ∃ t ∈ p.toList, t.1.FirstUnbound point e.symbol ∧
        ∀ u ∈ p.toList, Monomial.compareGraded u.1 t.1 = .lt → ∀ s ∈ u.1.vars, s ∈ point := by
  have hsorted : InGradedOrder p.gradedTerms := (lists_toList p).inGradedOrder_sortTerms
  have hbound : ∀ u : Monomial × R, (∀ e', ¬ evaluateTerm K point u = .error e') ↔
      ∀ s ∈ u.1.vars, s ∈ point := by
    intro u
    rw [← not_exists, exists_evaluateTerm_eq_error_iff]
    simp only [not_exists, not_and, not_not]
  refine (Outcome.foldlM_eq_error_iff (fun sum t e => Outcome.bind_pure_eq_error_iff)
    (fun h => Std.OrientedCmp.not_lt_of_lt h) hsorted).trans ?_
  simp only [(gradedTerms_perm p).mem_iff, hbound]
  simp only [evaluateTerm_eq_error_iff]

theorem exists_evaluate_eq_error_iff :
    (∃ e, p.evaluate K point = .error e) ↔ ∃ t ∈ p.toList, ∃ s ∈ t.1.vars, s ∉ point := by
  constructor
  · rintro ⟨e, he⟩
    rcases evaluate_eq_error_iff.1 he with ⟨t, ht, hfirst, -⟩
    exact ⟨t, ht, e.symbol, hfirst.mem_vars, hfirst.unbound⟩
  · rintro ⟨t, ht, s, hs, hunbound⟩
    rw [Outcome.exists_eq_error_iff]
    rintro ⟨x, hx⟩
    exact hunbound (mem_of_evaluate_eq_ok hx t ht s hs)

/-! ## The order in which the terms are met -/

/-- The value of a polynomial whose terms are met in the order of the list. -/
def evaluateListed (K : CoeffRing R) (point : Assignment R) (ts : List (Monomial × R)) :
    Except UnboundVariable R :=
  (sortTerms ts).foldlM (fun sum t => do return K.add sum (← evaluateTerm K point t)) K.zero

theorem Lists.evaluateListed_eq (h : p.Lists ts) :
    evaluateListed K point ts = p.evaluate K point := by
  rw [evaluateListed, h.sortTerms_eq]
  rfl

/-! ## Values -/

/-- The coefficient of a term times the powers of the values of its symbols. -/
def termValue (K : CoeffRing R) (point : Assignment R) (t : Monomial × R) : R :=
  K.mul t.2 (K.product (t.1.factors.map fun f => K.pow (point[f.1]?.getD K.zero) f.2.toNat))

/-- Values for more symbols do not change the value of a term. -/
theorem termValue_congr (hbound : ∀ s ∈ t.1.vars, s ∈ point)
    (hlarger : ∀ (s : Symbol) c, point[s]? = some c → larger[s]? = some c) :
    termValue K larger t = termValue K point t := by
  have hfactors : ∀ f ∈ t.1.factors, larger[f.1]? = point[f.1]? := by
    intro f hf
    rcases Assignment.mem_iff_exists_eq_some.1 (hbound f.1 (Monomial.mem_vars_of_mem hf)) with ⟨c, hc⟩
    rw [hc, hlarger f.1 c hc]
  refine congrArg (fun xs => K.mul t.2 (K.product xs)) (List.map_congr_left fun f hf => ?_)
  rw [hfactors f hf]

section Agrees

variable [CommRing R] [K.Agrees]

theorem termValue_eq (t : Monomial × R) :
    termValue K point t =
      MvPolynomial.eval point.valueAt (MvPolynomial.monomial t.1.toFinsupp t.2) := by
  rw [MvPolynomial.eval_monomial, Monomial.prod_toFinsupp]
  simp [termValue, Assignment.valueAt]

/-- The values of the terms may be added up in any order. -/
theorem Lists.evaluate_eq_ok_sum (h : p.Lists ts) (hbound : ∀ t ∈ ts, ∀ s ∈ t.1.vars, s ∈ point) :
    p.evaluate K point = .ok (K.sum (ts.map (termValue K point))) := by
  have hperm : ts.Perm p.toList := lists_iff_perm.1 h
  have hsum : K.sum (ts.map (termValue K point)) =
      MvPolynomial.eval point.valueAt p.toMvPolynomial := by
    calc
      K.sum (ts.map (termValue K point))
          = (p.toList.map (termValue K point)).sum := by
            rw [CoeffRing.sum_eq, (hperm.map _).sum_eq]
      _ = MvPolynomial.eval point.valueAt p.toMvPolynomial := by
            rw [toMvPolynomial, termSum, map_list_sum, List.map_map]
            exact congrArg List.sum (List.map_congr_left fun t _ => termValue_eq t)
  rw [hsum]
  exact evaluate_eq_ok fun t ht => hbound t (hperm.mem_iff.2 ht)

theorem evaluate_larger {x : R}
    (hlarger : ∀ (s : Symbol) c, point[s]? = some c → larger[s]? = some c)
    (hx : p.evaluate K point = .ok x) : p.evaluate K larger = .ok x := by
  have hbound := mem_of_evaluate_eq_ok hx
  have hmore : ∀ t ∈ p.toList, ∀ s ∈ t.1.vars, s ∈ larger := by
    intro t ht s hs
    rcases Assignment.mem_iff_exists_eq_some.1 (hbound t ht s hs) with ⟨c, hc⟩
    exact Assignment.mem_of_eq_some (hlarger s c hc)
  rw [← hx, (lists_toList p).evaluate_eq_ok_sum hmore, (lists_toList p).evaluate_eq_ok_sum hbound,
    List.map_congr_left fun t ht => termValue_congr (hbound t ht) hlarger]

end Agrees

/-- An evaluation fails exactly if a stored monomial has a symbol without a value, whatever its
coefficient is. It reports the smallest one of the first such monomial in graded order. If there is none
it returns the sum of the values of the terms, and so it does with values for more symbols. The order in
which the terms are met has no influence. -/
theorem evaluation_reports_first_unbound (hK : K.Lawful) (p : Poly R) (point : Assignment R) :
    ((∃ e, p.evaluate K point = .error e) ↔ ∃ t ∈ p.toList, ∃ s ∈ t.1.vars, s ∉ point) ∧
      (∀ e, p.evaluate K point = .error e ↔
        ∃ t ∈ p.toList, t.1.FirstUnbound point e.symbol ∧
          ∀ u ∈ p.toList, Monomial.compareGraded u.1 t.1 = .lt → ∀ s ∈ u.1.vars, s ∈ point) ∧
      (∀ ts, p.Lists ts → evaluateListed K point ts = p.evaluate K point) ∧
      (∀ ts, p.Lists ts → (∀ t ∈ ts, ∀ s ∈ t.1.vars, s ∈ point) →
        p.evaluate K point = .ok (K.sum (ts.map (termValue K point)))) ∧
      (∀ larger : Assignment R, (∀ (s : Symbol) c, point[s]? = some c → larger[s]? = some c) →
        ∀ x, p.evaluate K point = .ok x → p.evaluate K larger = .ok x) ∧
      ((∀ t ∈ p.toList, t.1.size < 2 ^ 32) → ∀ t ∈ p.toList, t.1.totalDegree < 2 ^ 64) := by
  let _ := hK.toCommRing
  have _ := hK.agrees
  refine ⟨exists_evaluate_eq_error_iff, fun e => evaluate_eq_error_iff,
    fun ts h => h.evaluateListed_eq, fun ts h => h.evaluate_eq_ok_sum, ?_, ?_⟩
  · intro larger hlarger x hx
    exact evaluate_larger hlarger hx
  · intro hsize t ht
    exact Monomial.totalDegree_lt (hsize t ht)

/-- Modulo four and with a value for `x` alone, `0 * w * z ^ 2 + 3 * v * x + 2` misses `w`: the term with
`v` comes later, and so does `z` in its term. With all values it is `2 * 3 * 3 + 2`. -/
theorem evaluation_reports_first_unbound_beside_zero :
    let four : Modulus := ⟨4, by decide⟩
    let K : CoeffRing (Residue four) := (integersMod four).toCoeffRing
    let v : Symbol := ⟨"v"⟩
    let w : Symbol := ⟨"w"⟩
    let x : Symbol := ⟨"x"⟩
    let z : Symbol := ⟨"z"⟩
    let zero : Monomial × Residue four := ((Monomial.ofSymbol w).withExponent z 2, K.zero)
    let ts : List (Monomial × Residue four) :=
      [((Monomial.ofSymbol v).withExponent x 1, K.ofInt 3), (.one, K.ofInt 2), zero]
    let p : Poly (Residue four) := ofStoredTerms ts
    let few : Assignment (Residue four) := .ofList [(x, K.ofInt 2)]
    let point : Assignment (Residue four) :=
      .ofList [(v, K.ofInt 3), (w, K.one), (x, K.ofInt 2), (z, K.zero)]
    let larger : Assignment (Residue four) := point.insert ⟨"y"⟩ K.one
    K.Lawful ∧ p.Lists ts ∧ (∀ t ∈ p.toList, t.1.totalDegree < 2 ^ 64) ∧
      p.evaluate K few = .error ⟨w⟩ ∧ evaluateListed K few ts = .error ⟨w⟩ ∧
      p.evaluate K point = .ok K.zero ∧ p.evaluate K larger = .ok K.zero := by
  intro four K v w x z zero ts p few point larger
  have hK : K.Lawful := lawful_integersMod four
  have hts : p.Lists ts := lists_ofStoredTerms (by decide +kernel)
  rcases evaluation_reports_first_unbound hK p few with ⟨-, herror, horder, -, -, hdegree⟩
  rcases evaluation_reports_first_unbound hK p point with ⟨-, -, -, hvalue, hmore, -⟩
  have hfirst : p.evaluate K few = .error ⟨w⟩ := by
    refine (herror ⟨w⟩).2 ⟨zero, by decide +kernel, ?_, by decide +kernel⟩
    exact ⟨by decide +kernel, by decide +kernel, by decide +kernel⟩
  have hok : p.evaluate K point = .ok K.zero := by
    rw [hvalue ts hts (by decide +kernel)]
    decide +kernel
  refine ⟨hK, hts, hdegree (by decide +kernel), hfirst, (horder ts hts).trans hfirst, hok,
    hmore larger ?_ _ hok⟩
  intro s c hs
  have hnew : compare (⟨"y"⟩ : Symbol) s ≠ .eq := by
    intro heq
    cases Std.LawfulEqCmp.eq_of_compare heq
    exact absurd (Assignment.mem_of_eq_some hs) (by decide +kernel)
  rw [Std.ExtTreeMap.getElem?_insert, if_neg hnew]
  exact hs

end Poly

end SymbolicPoly
