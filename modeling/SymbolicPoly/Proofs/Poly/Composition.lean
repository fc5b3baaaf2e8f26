import Mathlib.Algebra.MvPolynomial.Monad
import SymbolicPoly.Proofs.Poly.Evaluation
import SymbolicPoly.Proofs.Ring.Instances

/-!
# Composition — polynomials in the place of symbols

Where it succeeds, `compose` is the substitution of `MvPolynomial Symbol R`: every symbol with a value
is replaced by it and every other one by itself (`toMvPolynomial_compose`).

Evaluating what `compose` returned is the same as evaluating the original polynomial at a point that
holds the values of what was put in (`evaluate_compose`). All values are read at the one point, so
the replacement is simultaneous.
-/

namespace SymbolicPoly

universe u

namespace Poly

variable {R : Type u}

/-- The value at `point` of what comes into the place of a symbol. -/
def replacementValue (K : CoeffRing R) (values : Assignment (Poly R)) (point : Assignment R)
    (s : Symbol) : Except UnboundVariable R :=
  match values[s]? with
  | some w => w.evaluate K point
  | none =>
      match point[s]? with
      | some x => .ok x
      | none => .error ⟨s⟩

/-- The point `point'` holds, for each variable of `p`, the value of what comes into its place. -/
def HoldsReplacements (K : CoeffRing R) (p : Poly R) (values : Assignment (Poly R))
    (point point' : Assignment R) : Prop :=
  ∀ s ∈ p.vars K, ∃ x, replacementValue K values point s = .ok x ∧ point'[s]? = some x

/-- Adding up the composed terms cannot fail. -/
theorem exists_compose_iff {K : CoeffRing R} {p : Poly R} {values : Assignment (Poly R)} :
    (∃ q, p.compose K values = .ok q) ↔ ∀ t ∈ p.toList, ∃ r, composeTerm K values t = .ok r := by
  refine Outcome.exists_foldlM_eq_ok_iff fun acc t => ?_
  cases composeTerm K values t with
  | error e =>
      simp [bind, Except.bind]
  | ok r =>
      simp [bind, Except.bind, pure, Except.pure]

section Agrees

variable [CommRing R] {K : CoeffRing R} [K.Agrees] {values : Assignment (Poly R)}

/-! ## The substitution in the ring of Mathlib -/

/-- What comes into the place of a symbol. -/
noncomputable def replacement (values : Assignment (Poly R)) (s : Symbol) :
    MvPolynomial Symbol R :=
  match values[s]? with
  | some w => w.toMvPolynomial
  | none => MvPolynomial.X s

theorem replacement_of_eq_some {s : Symbol} {w : Poly R} (h : values[s]? = some w) :
    replacement values s = w.toMvPolynomial := by
  simp only [replacement, h]

theorem replacement_of_eq_none {s : Symbol} (h : values[s]? = none) :
    replacement values s = MvPolynomial.X s := by
  simp only [replacement, h]

theorem toMvPolynomial_imageOfFactors {fs : List (Symbol × UInt32)} {image : Poly R}
    (h : imageOfFactors K values fs = .ok image) :
    image.toMvPolynomial =
      (fs.map fun f =>
        if f.1 ∈ values then replacement values f.1 ^ f.2.toNat else 1).prod := by
  refine Outcome.foldlM_ok_induction
    (motive := fun done acc => toMvPolynomial acc = (done.map fun f =>
      if f.1 ∈ values then replacement values f.1 ^ f.2.toNat else 1).prod)
    (by simp) ?_ h
  intro done f acc next hacc hnext
  cases hf : values[f.1]? with
  | none =>
      -- A factor without a value is left to the second part of the term.
      simp only [hf] at hnext
      cases hnext
      simp [hacc, Assignment.not_mem_of_eq_none hf]
  | some w =>
      simp only [hf] at hnext
      rcases Outcome.bind_eq_ok_iff.1 hnext with ⟨power, hpower, hproduct⟩
      simp [toMvPolynomial_mul hproduct, toMvPolynomial_pow hpower, hacc,
        Assignment.mem_of_eq_some hf, replacement_of_eq_some hf]

theorem monomial_unassigned (m : Monomial) (c : R) :
    MvPolynomial.monomial (m.unassigned values).toFinsupp c =
      MvPolynomial.C c * (m.factors.map fun f =>
        if f.1 ∈ values then 1 else replacement values f.1 ^ f.2.toNat).prod := by
  rw [MvPolynomial.monomial_eq, Monomial.prod_toFinsupp, m.factors_unassigned]
  congr 1
  induction m.factors with
  | nil =>
      rfl
  | cons f fs ih =>
      cases hf : values[f.1]? with
      | none =>
          simp [Assignment.not_mem_of_eq_none hf, replacement_of_eq_none hf, ih]
      | some w =>
          simpa [Assignment.mem_of_eq_some hf] using ih

/-- Each factor has been put into exactly one of the two products. -/
theorem prod_replacement (fs : List (Symbol × UInt32)) :
    (fs.map fun f => if f.1 ∈ values then replacement values f.1 ^ f.2.toNat else 1).prod *
        (fs.map fun f => if f.1 ∈ values then 1 else replacement values f.1 ^ f.2.toNat).prod =
      (fs.map fun f => replacement values f.1 ^ f.2.toNat).prod := by
  rw [← List.prod_map_mul]
  congr 2
  funext f
  by_cases hf : f.1 ∈ values
  · simp [hf]
  · simp [hf]

theorem bind₁_replacement_monomial (m : Monomial) (c : R) :
    MvPolynomial.bind₁ (replacement values) (MvPolynomial.monomial m.toFinsupp c) =
      MvPolynomial.C c * (m.factors.map fun f => replacement values f.1 ^ f.2.toNat).prod :=
  (MvPolynomial.bind₁_monomial _ _ _).trans
    (congrArg _ (m.prod_toFinsupp fun s e => replacement values s ^ e))

theorem toMvPolynomial_composeTerm {t : Monomial × R} {r : Poly R}
    (h : composeTerm K values t = .ok r) :
    r.toMvPolynomial =
      MvPolynomial.bind₁ (replacement values) (MvPolynomial.monomial t.1.toFinsupp t.2) := by
  rcases Outcome.bind_eq_ok_iff.1 h with ⟨image, himage, hproduct⟩
  calc
    r.toMvPolynomial
        = image.toMvPolynomial *
            MvPolynomial.monomial (t.1.unassigned values).toFinsupp t.2 := by
          simp [toMvPolynomial_mul hproduct]
    _ = MvPolynomial.C t.2 *
          (t.1.factors.map fun f => replacement values f.1 ^ f.2.toNat).prod := by
          rw [toMvPolynomial_imageOfFactors himage, monomial_unassigned, mul_left_comm,
            prod_replacement]
    _ = MvPolynomial.bind₁ (replacement values) (MvPolynomial.monomial t.1.toFinsupp t.2) :=
          (bind₁_replacement_monomial t.1 t.2).symm

theorem toMvPolynomial_compose {p q : Poly R} (h : p.compose K values = .ok q) :
    q.toMvPolynomial = MvPolynomial.bind₁ (replacement values) p.toMvPolynomial := by
  refine Outcome.foldlM_ok_induction
    (motive := fun done acc => toMvPolynomial acc =
      MvPolynomial.bind₁ (replacement values) (termSum done)) ?_ ?_ h
  · exact toMvPolynomial_empty.trans (map_zero _).symm
  · intro done t acc next hacc hnext
    rcases Outcome.bind_eq_ok_iff.1 hnext with ⟨term, hterm, hsum⟩
    cases hsum
    simp [hacc, toMvPolynomial_composeTerm hterm]

/-! ## Values -/

variable {p q : Poly R} {point : Assignment R} {s : Symbol}

theorem mem_vars_X {u : Symbol} (h : u ∈ (MvPolynomial.X s : MvPolynomial Symbol R).vars) :
    u = s := by
  rcases (MvPolynomial.mem_vars_iff_mem_support u).1 h with ⟨d, hd, hu⟩
  have hsingle : Finsupp.single s 1 = d :=
    (Finset.mem_singleton.1 (MvPolynomial.support_monomial_subset hd)).symm
  have hsupport : u ∈ (Finsupp.single s 1).support := hsingle ▸ hu
  exact Finset.mem_singleton.1 (Finsupp.support_single_subset hsupport)

theorem mem_of_mem_vars_replacement (hfree : values[s]? = none → s ∈ point)
    (hbound : ∀ w, values[s]? = some w → ∀ u ∈ w.vars K, u ∈ point) {u : Symbol}
    (hu : u ∈ (replacement values s).vars) : u ∈ point := by
  cases hs : values[s]? with
  | none =>
      rw [replacement_of_eq_none hs] at hu
      exact mem_vars_X hu ▸ hfree hs
  | some w =>
      rw [replacement_of_eq_some hs] at hu
      exact hbound w hs u (mem_vars_toMvPolynomial_iff.1 hu)

theorem replacementValue_eq_ok (hvalues : ∀ w, values[s]? = some w → w.Canonical K)
    (hfree : values[s]? = none → s ∈ point)
    (hbound : ∀ w, values[s]? = some w → ∀ u ∈ w.vars K, u ∈ point) :
    replacementValue K values point s =
      .ok (MvPolynomial.eval point.valueAt (replacement values s)) := by
  cases hs : values[s]? with
  | none =>
      rcases Assignment.mem_iff_exists_eq_some.1 (hfree hs) with ⟨x, hx⟩
      simp [replacementValue, hs, hx, replacement_of_eq_none hs, Assignment.valueAt]
  | some w =>
      have hvalue := (hvalues w hs).evaluate_eq_ok (hbound w hs)
      simp [replacementValue, hs, hvalue, replacement_of_eq_some hs]

/-- The values of the replacements are those that the result of the composition refers to. -/
theorem Canonical.evaluate_of_holdsReplacements (hp : p.Canonical K) {point' : Assignment R}
    (hvalue : ∀ s ∈ p.vars K, replacementValue K values point s =
      .ok (MvPolynomial.eval point.valueAt (replacement values s)))
    (hpoint' : HoldsReplacements K p values point point') :
    p.evaluate K point' = .ok (MvPolynomial.eval point.valueAt
      (MvPolynomial.bind₁ (replacement values) p.toMvPolynomial)) := by
  have hheld : ∀ s ∈ p.vars K,
      point'[s]? = some (MvPolynomial.eval point.valueAt (replacement values s)) := by
    intro s hs
    rcases hpoint' s hs with ⟨x, hx, hstored⟩
    cases (hvalue s hs).symm.trans hx
    exact hstored
  have hmem : ∀ s ∈ p.vars K, s ∈ point' := fun s hs => Assignment.mem_of_eq_some (hheld s hs)
  refine (hp.evaluate_eq_ok hmem).trans (congrArg Except.ok ?_)
  calc
    MvPolynomial.eval point'.valueAt p.toMvPolynomial
        = MvPolynomial.eval
            (fun s => MvPolynomial.eval point.valueAt (replacement values s)) p.toMvPolynomial := by
          refine MvPolynomial.eval₂Hom_congr' rfl ?_ rfl
          intro s hs _
          simp [Assignment.valueAt, hheld s (mem_vars_toMvPolynomial_iff.1 hs)]
    _ = MvPolynomial.eval point.valueAt
          (MvPolynomial.bind₁ (replacement values) p.toMvPolynomial) :=
          (MvPolynomial.eval₂Hom_bind₁ _ _ _ _).symm

theorem evaluate_of_compose_eq_ok (h : p.compose K values = .ok q)
    (hfree : ∀ s ∈ p.vars K, values[s]? = none → s ∈ point)
    (hbound : ∀ s ∈ p.vars K, ∀ w, values[s]? = some w → ∀ u ∈ w.vars K, u ∈ point) :
    q.evaluate K point = .ok (MvPolynomial.eval point.valueAt
      (MvPolynomial.bind₁ (replacement values) p.toMvPolynomial)) := by
  rw [← toMvPolynomial_compose h]
  apply (canonical_compose h).evaluate_eq_ok
  intro u hu
  -- A variable of the result stands in the replacement of some variable of `p`.
  have hvars := mem_vars_toMvPolynomial_iff.2 hu
  rw [toMvPolynomial_compose h] at hvars
  rcases MvPolynomial.mem_vars_bind₁ _ _ hvars with ⟨s, hs, hu'⟩
  have hsp : s ∈ p.vars K := mem_vars_toMvPolynomial_iff.1 hs
  exact mem_of_mem_vars_replacement (hfree s hsp) (hbound s hsp) hu'

end Agrees

/-- What has been composed is evaluated by evaluating the replacements first, all at one point. -/
theorem evaluate_compose {K : CoeffRing R} (hK : K.Lawful) {p q : Poly R}
    {values : Assignment (Poly R)} {point : Assignment R} (hp : p.Canonical K)
    (hvalues : ∀ (s : Symbol) (w : Poly R), values[s]? = some w → w.Canonical K)
    (h : p.compose K values = .ok q)
    (hfree : ∀ s ∈ p.vars K, values[s]? = none → s ∈ point)
    (hbound : ∀ s ∈ p.vars K, ∀ w, values[s]? = some w → ∀ u ∈ w.vars K, u ∈ point) :
    ∃ x, q.evaluate K point = .ok x ∧ (∃ point', HoldsReplacements K p values point point') ∧
      ∀ point', HoldsReplacements K p values point point' → p.evaluate K point' = .ok x := by
  let _ := hK.toCommRing
  have _ := hK.agrees
  have hvalue : ∀ s ∈ p.vars K, replacementValue K values point s =
      .ok (MvPolynomial.eval point.valueAt (replacement values s)) := by
    intro s hs
    exact replacementValue_eq_ok (hvalues s) (hfree s hs) (hbound s hs)
  refine ⟨_, evaluate_of_compose_eq_ok h hfree hbound, ?_, ?_⟩
  · -- Such a point exists, since all replacements have values.
    rcases Assignment.exists_forall_mem
      (fun s => MvPolynomial.eval point.valueAt (replacement values s)) (p.vars K).toList
      with ⟨point', hpoint'⟩
    refine ⟨point', ?_⟩
    intro s hs
    exact ⟨_, hvalue s hs, hpoint' s (Std.ExtTreeSet.mem_toList.2 hs)⟩
  · intro point' hpoint'
    exact hp.evaluate_of_holdsReplacements hvalue hpoint'

/-- Two symbols trade places: in `3 * x * y ^ 2` each is replaced by the other one, once. -/
theorem evaluate_compose_swap :
    let x : Symbol := ⟨"x"⟩
    let y : Symbol := ⟨"y"⟩
    let p : Poly Int := monomial integers ((Monomial.ofSymbol x).withExponent y 2) 3
    let values : Assignment (Poly Int) := .ofList [(x, symbol integers y), (y, symbol integers x)]
    let point : Assignment Int := .ofList [(x, (2 : Int)), (y, 5)]
    let swapped : Assignment Int := .ofList [(x, (5 : Int)), (y, 2)]
    HoldsReplacements integers p values point swapped ∧
      ∃ q, p.compose integers values = .ok q ∧
        q.evaluate integers point = p.evaluate integers swapped := by
  intro x y p values point swapped
  have hp : p.Canonical integers := by decide +kernel
  have hvars : (p.vars integers).toList = [x, y] := by decide +kernel
  have hvalues : ∀ t ∈ values.toList, t.2.Canonical integers := by decide +kernel
  have hbound : ∀ t ∈ values.toList, ∀ u ∈ (t.2.vars integers).toList, u ∈ point := by
    decide +kernel
  have hstored : ∀ {s : Symbol} {w : Poly Int}, values[s]? = some w → (s, w) ∈ values.toList :=
    Std.ExtTreeMap.mem_toList_iff_getElem?_eq_some.2
  have hcases : ∀ s ∈ p.vars integers, s = x ∨ s = y := by
    intro s hs
    simpa [hvars] using Std.ExtTreeSet.mem_toList.2 hs
  have hholds : HoldsReplacements integers p values point swapped := by
    intro s hs
    rcases hcases s hs with rfl | rfl
    · exact ⟨5, by decide +kernel, by decide +kernel⟩
    · exact ⟨2, by decide +kernel, by decide +kernel⟩
  have hok : (p.compose integers values).isOk = true := by decide +kernel
  rcases Outcome.exists_eq_ok_of_isOk hok with ⟨q, hq⟩
  have hvalue := evaluate_compose lawful_integers hp (fun s w hw => hvalues (s, w) (hstored hw)) hq
    (fun s hs _ => (hcases s hs).elim (fun h => h ▸ by decide +kernel) fun h => h ▸ by decide +kernel)
    (fun s _ w hw u hu => hbound (s, w) (hstored hw) u (Std.ExtTreeSet.mem_toList.2 hu))
  rcases hvalue with ⟨v, hv, -, hswapped⟩
  exact ⟨hholds, q, hq, hv.trans (hswapped swapped hholds).symm⟩

end Poly

end SymbolicPoly
