import SymbolicPoly.Proofs.Poly.Substitution

/-!
# Stages — one substitution after another

Ring elements can be put in the place of some symbols first and of others later. The result is the
same as if all had been put in at once, where a symbol that has a value in both assignments gets the
one of the first (`substitute_substitute`). If no symbol has two values, the stages can be exchanged.

After a stage terms have merged and vanished, and the next one starts from what is left. In the ring
`MvPolynomial Symbol R` the stages are homomorphisms, and all that has to be compared is what they make
of a single symbol (`bind₁_replacement_orElse`).

Evaluation can be the last stage. It needs no more values than evaluation at once, but perhaps fewer:
variables may have vanished.
-/

namespace SymbolicPoly

universe u

/-- The values of both assignments. A symbol that has a value in `first` keeps that one. -/
def Assignment.orElse {α : Type u} (first later : Assignment α) : Assignment α :=
  later ∪ first

namespace Assignment

variable {α : Type u} (first later : Assignment α)

@[simp]
theorem getElem?_orElse (s : Symbol) :
    (first.orElse later)[s]? = first[s]?.or later[s]? :=
  Std.ExtTreeMap.getElem?_union

theorem mem_orElse_iff {s : Symbol} : s ∈ first.orElse later ↔ s ∈ first ∨ s ∈ later :=
  Std.ExtTreeMap.mem_union_iff.trans or_comm

theorem orElse_comm (h : ∀ s ∈ first, s ∉ later) : first.orElse later = later.orElse first := by
  refine Std.ExtTreeMap.ext_getElem? fun s => ?_
  rw [getElem?_orElse, getElem?_orElse]
  cases hfirst : first[s]? with
  | none =>
      simp
  | some a =>
      -- The later assignment has no value here, so the first one counts on both sides.
      have hlater : later[s]? = none :=
        Std.ExtTreeMap.getElem?_eq_none (h s (mem_of_eq_some hfirst))
      simp [hlater]

end Assignment

variable {R : Type u}

namespace Poly

section Agrees

variable [CommRing R] {K : CoeffRing R} [K.Agrees] {p : Poly R} {first later : Assignment R}
  {s : Symbol}

/-! ## The stages in the ring of Mathlib -/

omit [K.Agrees] in
theorem replacement_constants_congr (h : first[s]? = later[s]?) :
    replacement (first.constants K) s = replacement (later.constants K) s := by
  simp only [replacement, Assignment.getElem?_constants, h]

/-- A symbol that has been replaced by a constant is out of reach for the second stage. -/
theorem bind₁_replacement_orElse (s : Symbol) :
    MvPolynomial.bind₁ (replacement (later.constants K)) (replacement (first.constants K) s) =
      replacement ((first.orElse later).constants K) s := by
  cases hs : first[s]? with
  | none =>
      have hboth : (first.orElse later)[s]? = later[s]? := by simp [hs]
      rw [replacement_constants_of_eq_none hs, MvPolynomial.bind₁_X_right,
        replacement_constants_congr hboth]
  | some c =>
      have hboth : (first.orElse later)[s]? = some c := by simp [hs]
      rw [replacement_constants_of_eq_some hs, MvPolynomial.bind₁_C_right,
        replacement_constants_of_eq_some hboth]

theorem substitute_substitute (p : Poly R) (first later : Assignment R) :
    (p.substitute K first).substitute K later = p.substitute K (first.orElse later) := by
  apply (canonical_substitute _ later).ext_toMvPolynomial (canonical_substitute p _)
  rw [toMvPolynomial_substitute, toMvPolynomial_substitute, toMvPolynomial_substitute,
    MvPolynomial.bind₁_bind₁]
  simp only [bind₁_replacement_orElse]

/-! ## What is left after a stage -/

/-- The variables that are left are those of `p` to which nothing is assigned. -/
theorem mem_vars_of_mem_vars_substitute (h : s ∈ (p.substitute K first).vars K) :
    s ∈ p.vars K ∧ s ∉ first := by
  rw [← mem_vars_toMvPolynomial_iff, toMvPolynomial_substitute] at h
  rcases MvPolynomial.mem_vars_bind₁ _ _ h with ⟨t, ht, hs⟩
  cases htvalue : first[t]? with
  | none =>
      rw [replacement_constants_of_eq_none htvalue] at hs
      cases mem_vars_X hs
      exact ⟨mem_vars_toMvPolynomial_iff.1 ht, Assignment.not_mem_of_eq_none htvalue⟩
  | some c =>
      rw [replacement_constants_of_eq_some htvalue] at hs
      simp at hs

theorem eval_replacement_constants (s : Symbol) :
    MvPolynomial.eval later.valueAt (replacement (first.constants K) s) =
      (first.orElse later).valueAt s := by
  cases hs : first[s]? with
  | none =>
      simp [replacement_constants_of_eq_none hs, Assignment.valueAt, hs]
  | some c =>
      simp [replacement_constants_of_eq_some hs, Assignment.valueAt, hs]

theorem evaluate_substitute_of_evaluate {c : R} (h : p.evaluate K (first.orElse later) = .ok c) :
    (p.substitute K first).evaluate K later = .ok c := by
  have hmem := mem_of_evaluate_eq_ok h
  have hbound : ∀ s ∈ (p.substitute K first).vars K, s ∈ later := by
    intro s hs
    rcases mem_vars_of_mem_vars_substitute hs with ⟨hvars, hfirst⟩
    rcases mem_vars_iff.1 hvars with ⟨t, ht, -, hst⟩
    exact ((Assignment.mem_orElse_iff first later).1 (hmem t ht s hst)).resolve_left hfirst
  cases h.symm.trans (evaluate_eq_ok hmem)
  refine ((canonical_substitute p first).evaluate_eq_ok hbound).trans (congrArg Except.ok ?_)
  calc
    MvPolynomial.eval later.valueAt (p.substitute K first).toMvPolynomial
        = MvPolynomial.eval
            (fun s => MvPolynomial.eval later.valueAt (replacement (first.constants K) s))
            p.toMvPolynomial := by
          rw [toMvPolynomial_substitute]
          exact MvPolynomial.eval₂Hom_bind₁ _ _ _ _
    _ = MvPolynomial.eval (first.orElse later).valueAt p.toMvPolynomial := by
          simp only [eval_replacement_constants]

end Agrees

/-- Substituting in two stages, of which the second may be an evaluation, is substituting at once. -/
theorem substitution_in_stages {K : CoeffRing R} (hK : K.Lawful) (p : Poly R)
    (first later : Assignment R) :
    (p.substitute K first).substitute K later = p.substitute K (first.orElse later) ∧
      ((∀ s ∈ first, s ∉ later) →
        (p.substitute K first).substitute K later = (p.substitute K later).substitute K first) ∧
      (∀ s ∈ (p.substitute K first).vars K, s ∈ p.vars K ∧ s ∉ first) ∧
      ∀ c, p.evaluate K (first.orElse later) = .ok c →
        (p.substitute K first).evaluate K later = .ok c := by
  let _ := hK.toCommRing
  have _ := hK.agrees
  refine ⟨substitute_substitute p first later, ?_, ?_, ?_⟩
  · intro hdisjoint
    rw [substitute_substitute, substitute_substitute, Assignment.orElse_comm first later hdisjoint]
  · intro s hs
    exact mem_vars_of_mem_vars_substitute hs
  · intro c h
    exact evaluate_substitute_of_evaluate h

/-- Modulo four the term `2 * x * y` vanishes at `x = 2`. Then `y` is gone, and what it would get later
does not matter, be it a second value or the only one. -/
theorem substitution_in_stages_modulo_four :
    let four : Modulus := ⟨4, by decide⟩
    let K : CoeffRing (Residue four) := (integersMod four).toCoeffRing
    let x : Symbol := ⟨"x"⟩
    let y : Symbol := ⟨"y"⟩
    let z : Symbol := ⟨"z"⟩
    let p : Poly (Residue four) := ofTerms K
      [((Monomial.ofSymbol x).withExponent y 1, K.ofInt 2),
        ((Monomial.ofSymbol x).withExponent z 1, K.ofInt 3)]
    let first : Assignment (Residue four) := .ofList [(x, K.ofInt 2)]
    let overlap : Assignment (Residue four) := .ofList [(x, K.ofInt 2), (y, K.ofInt 1)]
    let later : Assignment (Residue four) := .ofList [(y, K.ofInt 3), (z, K.ofInt 1)]
    K.Lawful ∧ (overlap.orElse later)[y]? = some (K.ofInt 1) ∧
      (p.substitute K overlap).substitute K later = p.substitute K (overlap.orElse later) ∧
      (p.substitute K first).substitute K later = (p.substitute K later).substitute K first ∧
      z ∈ (p.substitute K first).vars K ∧ z ∈ p.vars K ∧ z ∉ first ∧
      y ∉ (p.substitute K first).vars K ∧
      ∃ c, p.evaluate K (overlap.orElse later) = .ok c ∧
        (p.substitute K overlap).evaluate K later = .ok c := by
  intro four K x y z p first overlap later
  have hK : K.Lawful := lawful_integersMod four
  have hdisjoint : ∀ s ∈ first.keys, s ∉ later := by decide +kernel
  have hz : z ∈ (p.substitute K first).vars K := by decide +kernel
  have hmem : ∀ t ∈ p.toList, ∀ s ∈ t.1.vars, s ∈ overlap.orElse later := by decide +kernel
  rcases substitution_in_stages hK p overlap later with ⟨hstages, -, -, hevaluate⟩
  rcases substitution_in_stages hK p first later with ⟨-, hexchange, hvars, -⟩
  have hexchange := hexchange fun s hs => hdisjoint s (Std.ExtTreeMap.mem_keys.2 hs)
  have hy : y ∉ (p.substitute K first).vars K := by decide +kernel
  let _ := hK.toCommRing
  have _ := hK.agrees
  have hvalue := evaluate_eq_ok (K := K) hmem
  exact ⟨hK, by decide +kernel, hstages, hexchange, hz, (hvars z hz).1, (hvars z hz).2, hy, _, hvalue,
    hevaluate _ hvalue⟩

end Poly

end SymbolicPoly
