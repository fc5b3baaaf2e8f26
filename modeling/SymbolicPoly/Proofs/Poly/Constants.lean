import SymbolicPoly.Proofs.Poly.ComposeOverflow
import SymbolicPoly.Proofs.Poly.Substitution

/-!
# Constants — three ways to put in ring elements

A ring element can be put in the place of a symbol by `substitute`, by `compose` as a constant
polynomial, and, if every symbol gets one, by `evaluate`. All three ways give the same
(`substitution_of_constants`), also for polynomials that store zeros.

Constant polynomials have no exponents. This is why `compose` cannot fail here, although it takes
powers of the values with any exponent (`exists_compose_constants`).
-/

namespace SymbolicPoly

universe u

variable {R : Type u}

theorem Monomial.isOne_iff {m : Monomial} : m.isOne = true ↔ m = one := by
  rw [isOne, List.isEmpty_iff]
  exact ⟨fun h => ext_factors h, congrArg factors⟩

namespace Poly

variable {K : CoeffRing R} {p : Poly R}

/-! ## Constant polynomials -/

theorem isConstant_iff : p.isConstant K = true ↔ ∀ t ∈ p.nonzeroTerms K, t.1 = .one := by
  simp only [isConstant, List.all_eq_true, Monomial.isOne_iff]

/-- A constant polynomial has the value that is its coefficient at the monomial without factors. -/
theorem constantValue?_eq_some_iff {c : R} :
    p.constantValue? K = some c ↔ p.isConstant K = true ∧ p.coeff K .one = c := by
  have hvalue : p.constantValue? K = if p.isConstant K then some (p.coeff K .one) else none := rfl
  rw [hvalue]
  by_cases hconstant : p.isConstant K = true
  · simp [hconstant]
  · simp [hconstant]

section Agrees

variable [CommRing R] [K.Agrees] {values point : Assignment R}

theorem constantValue?_constant (c : R) : (constant K c).constantValue? K = some c := by
  refine constantValue?_eq_some_iff.2 ⟨isConstant_iff.2 fun t ht => ?_, ?_⟩
  · exact fst_eq_of_mem_toList_monomial (mem_nonzeroTerms_iff.1 ht).1
  · exact (coeff_constant c .one).trans (if_pos rfl)

/-! ## Composition with constants -/

theorem replacedExponent_constants (values : Assignment R) (fs : List (Symbol × UInt32))
    (s : Symbol) : replacedExponent K (values.constants K) fs s = 0 := by
  induction fs with
  | nil =>
      rfl
  | cons f fs ih =>
      cases hf : values[f.1]? with
      | none =>
          rw [replacedExponent_cons_of_eq_none (Assignment.getElem?_constants_of_eq_none hf), ih]
      | some c =>
          have hconstant := Assignment.getElem?_constants_of_eq_some (K := K) hf
          simp [replacedExponent_cons_of_eq_some hconstant, degreeIn_constant, ih]

theorem exists_composeTerm_constants (values : Assignment R) (t : Monomial × R) :
    ∃ r, composeTerm K (values.constants K) t = .ok r := by
  refine exists_composeTerm_of_degreeIn (fun s w hs => ?_) fun s => ?_
  · rw [Assignment.getElem?_constants] at hs
    rcases Option.map_eq_some_iff.1 hs with ⟨c, -, rfl⟩
    exact canonical_monomial .one c
  · rw [replacedExponent_constants, Nat.zero_add]
    exact ((t.1.unassigned (values.constants K)).exponent s).toNat_lt_size

theorem exists_compose_constants (p : Poly R) (values : Assignment R) :
    ∃ r, p.compose K (values.constants K) = .ok r :=
  exists_compose_iff.2 fun t _ => exists_composeTerm_constants values t

theorem compose_constants (p : Poly R) (values : Assignment R) :
    p.compose K (values.constants K) = .ok (p.substitute K values) := by
  rcases exists_compose_constants (K := K) p values with ⟨r, hr⟩
  have heq : r = p.substitute K values :=
    (realizes_substitute values).eq_of_toMvPolynomial_eq (canonical_compose hr)
      (toMvPolynomial_compose hr)
  exact heq ▸ hr

/-! ## Evaluation -/

/-- If every symbol gets a value, a constant polynomial is left. -/
theorem bind₁_replacement_constants
    (h : ∀ t ∈ p.toList, ∀ s ∈ t.1.vars, s ∈ point) :
    MvPolynomial.bind₁ (replacement (point.constants K)) p.toMvPolynomial =
      MvPolynomial.C (MvPolynomial.eval point.valueAt p.toMvPolynomial) := by
  have hvars : ∀ s ∈ p.toMvPolynomial.vars, s ∈ point := by
    intro s hs
    rcases mem_vars_iff.1 ((mem_vars_toMvPolynomial_iff (K := K)).1 hs) with ⟨t, ht, -, hst⟩
    exact h t ht s hst
  calc
    MvPolynomial.bind₁ (replacement (point.constants K)) p.toMvPolynomial
        = MvPolynomial.eval₂Hom MvPolynomial.C (fun s => MvPolynomial.C (point.valueAt s))
            p.toMvPolynomial :=
          MvPolynomial.eval₂Hom_congr' rfl (fun s hs _ => replacement_constants (hvars s hs)) rfl
    _ = MvPolynomial.C (MvPolynomial.eval point.valueAt p.toMvPolynomial) :=
          (MvPolynomial.map_eval₂Hom (RingHom.id R) point.valueAt MvPolynomial.C _).symm

theorem substitute_of_evaluate_eq_ok {c : R} (h : p.evaluate K point = .ok c) :
    p.substitute K point = constant K c := by
  have hmem := mem_of_evaluate_eq_ok h
  cases h.symm.trans (evaluate_eq_ok hmem)
  refine ((realizes_substitute point).eq_of_toMvPolynomial_eq (canonical_monomial .one _) ?_).symm
  exact (toMvPolynomial_constant _).trans (bind₁_replacement_constants hmem).symm

end Agrees

/-- Putting ring elements into a polynomial, putting in the constant polynomials that they are, and
evaluating give the same. -/
theorem substitution_of_constants {K : CoeffRing R} (hK : K.Lawful) (p : Poly R)
    (values : Assignment R) :
    p.compose K (values.constants K) = .ok (p.substitute K values) ∧
      ∀ c, p.evaluate K values = .ok c →
        p.substitute K values = constant K c ∧
          (p.substitute K values).constantValue? K = some c := by
  let _ := hK.toCommRing
  have _ := hK.agrees
  refine ⟨compose_constants p values, ?_⟩
  intro c h
  have hconstant := substitute_of_evaluate_eq_ok h
  exact ⟨hconstant, hconstant ▸ constantValue?_constant c⟩

/-- Modulo four the term `2 * x ^ 4294967295 * y` vanishes at `x = 2`, and a zero is stored at `y`.
Without a value for `y` nothing but the constant is left, and with one it is the value. -/
theorem substitution_of_constants_modulo_four :
    let four : Modulus := ⟨4, by decide⟩
    let K : CoeffRing (Residue four) := (integersMod four).toCoeffRing
    let x : Symbol := ⟨"x"⟩
    let y : Symbol := ⟨"y"⟩
    let p : Poly (Residue four) := ofStoredTerms
      [((Monomial.ofSymbol y).withExponent x 4294967295, K.ofInt 2), (.ofSymbol y, K.zero),
        (.ofSymbol x, K.ofInt 3)]
    let values : Assignment (Residue four) := .ofList [(x, K.ofInt 2)]
    let point : Assignment (Residue four) := .ofList [(x, K.ofInt 2), (y, K.ofInt 3)]
    K.Lawful ∧ p.compose K (values.constants K) = .ok (p.substitute K values) ∧
      p.substitute K values = constant K (K.ofInt 2) ∧
      p.evaluate K point = .ok (K.ofInt 2) ∧ p.substitute K point = constant K (K.ofInt 2) ∧
      (p.substitute K point).constantValue? K = some (K.ofInt 2) := by
  intro four K x y p values point
  have hK : K.Lawful := lawful_integersMod four
  let _ := hK.toCommRing
  have _ := hK.agrees
  have hmem : ∀ t ∈ p.toList, ∀ s ∈ t.1.vars, s ∈ point := by decide +kernel
  rcases (substitution_of_constants hK p point).2 _ (evaluate_eq_ok hmem) with ⟨hconstant, hvalue⟩
  -- The value is the one that the constant left by the substitution has.
  have hleft : (p.substitute K point).constantValue? K = some (K.ofInt 2) := by decide +kernel
  have hevaluate := evaluate_eq_ok (K := K) hmem
  rw [Option.some.inj (hvalue.symm.trans hleft)] at hevaluate hconstant
  exact ⟨hK, (substitution_of_constants hK p values).1, by decide +kernel, hevaluate, hconstant,
    hleft⟩

end Poly

end SymbolicPoly
