import SymbolicPoly.Proofs.Poly.Composition
import SymbolicPoly.Proofs.Poly.Homomorphism
import SymbolicPoly.Proofs.Ring.Modular

/-!
# Substitution — ring elements in the place of symbols

Putting ring elements in the place of some symbols is a ring homomorphism: it replaces each of those
symbols by a constant polynomial and leaves the others (`monomial_substituteTerm`). What stays of a
monomial divides it, so a product that exists before the substitution exists after it
(`realizes_substitute`).

With evaluation, which puts values in the place of all symbols, the same is true, except that it can
fail when a symbol has no value (`evaluate_substitute_arithmetic`).
-/

namespace SymbolicPoly

universe u

variable {R : Type u}

namespace Assignment

/-- The values as constant polynomials. -/
def constants (K : CoeffRing R) (values : Assignment R) : Assignment (Poly R) :=
  values.map fun _ c => Poly.constant K c

variable {K : CoeffRing R} {values : Assignment R}

@[simp]
theorem mem_constants {s : Symbol} : s ∈ values.constants K ↔ s ∈ values :=
  Std.ExtTreeMap.mem_map

theorem getElem?_constants (s : Symbol) :
    (values.constants K)[s]? = values[s]?.map (Poly.constant K) :=
  Std.ExtTreeMap.getElem?_map

theorem getElem?_constants_of_eq_some {s : Symbol} {c : R} (h : values[s]? = some c) :
    (values.constants K)[s]? = some (Poly.constant K c) := by
  rw [getElem?_constants, h, Option.map_some]

theorem getElem?_constants_of_eq_none {s : Symbol} (h : values[s]? = none) :
    (values.constants K)[s]? = none := by
  rw [getElem?_constants, h, Option.map_none]

theorem unassigned_constants (m : Monomial) :
    m.unassigned (values.constants K) = m.unassigned values := by
  simp only [Monomial.unassigned, constants, Std.ExtTreeMap.contains_map]

end Assignment

/-- What stays of a monomial divides it. -/
theorem Monomial.exponent_unassigned_le (m : Monomial) (values : Assignment R) (s : Symbol) :
    ((m.unassigned values).exponent s).toNat ≤ (m.exponent s).toNat := by
  rw [unassigned, exponent_restrict]
  split
  · exact Nat.le_refl _
  · exact Nat.zero_le _

namespace Poly

section Agrees

variable [CommRing R] {K : CoeffRing R} [K.Agrees] {values : Assignment R} {p q r : Poly R}

/-! ## The substitution in the ring of Mathlib -/

theorem replacement_constants_of_eq_some {s : Symbol} {c : R} (hs : values[s]? = some c) :
    replacement (values.constants K) s = MvPolynomial.C c := by
  rw [replacement_of_eq_some (Assignment.getElem?_constants_of_eq_some hs), toMvPolynomial_constant]

omit [K.Agrees] in
theorem replacement_constants_of_eq_none {s : Symbol} (hs : values[s]? = none) :
    replacement (values.constants K) s = MvPolynomial.X s :=
  replacement_of_eq_none (Assignment.getElem?_constants_of_eq_none hs)

theorem replacement_constants {s : Symbol} (hs : s ∈ values) :
    replacement (values.constants K) s = MvPolynomial.C (values.valueAt s) := by
  rcases Assignment.mem_iff_exists_eq_some.1 hs with ⟨c, hc⟩
  rw [replacement_constants_of_eq_some hc, Assignment.valueAt_of_eq_some hc]

/-- The coefficient collects the powers of the assigned factors. -/
theorem C_foldl_factors (fs : List (Symbol × UInt32)) (c : R) :
    MvPolynomial.C (fs.foldl
        (fun c f =>
          match values[f.1]? with
          | some x => K.mul c (K.pow x f.2.toNat)
          | none => c)
        c) =
      MvPolynomial.C c * (fs.map fun f =>
        if f.1 ∈ values.constants K then replacement (values.constants K) f.1 ^ f.2.toNat
        else 1).prod := by
  induction fs generalizing c with
  | nil =>
      simp
  | cons f fs ih =>
      rw [List.foldl_cons, ih]
      cases hf : values[f.1]? with
      | none =>
          -- The factor stays in the monomial, and the coefficient as it is.
          simp [Assignment.not_mem_of_eq_none hf]
      | some x =>
          simp [Assignment.mem_of_eq_some hf, replacement_constants_of_eq_some hf, mul_assoc]

theorem monomial_substituteTerm (t : Monomial × R) :
    MvPolynomial.monomial (substituteTerm K values t).1.toFinsupp (substituteTerm K values t).2 =
      MvPolynomial.bind₁ (replacement (values.constants K))
        (MvPolynomial.monomial t.1.toFinsupp t.2) := by
  -- The assigned factors belong to the coefficient and the others to the monomial.
  rw [bind₁_replacement_monomial, ← prod_replacement, ← mul_assoc, ← C_foldl_factors,
    ← monomial_unassigned, Assignment.unassigned_constants]
  rfl

theorem realizes_substitute (values : Assignment R) :
    Realizes K (fun p : Poly R => p.substitute K values)
      (MvPolynomial.bind₁ (replacement (values.constants K))).toRingHom :=
  Realizes.of_terms monomial_substituteTerm fun t => t.1.exponent_unassigned_le values

theorem toMvPolynomial_substitute (p : Poly R) (values : Assignment R) :
    (p.substitute K values).toMvPolynomial =
      MvPolynomial.bind₁ (replacement (values.constants K)) p.toMvPolynomial :=
  (realizes_substitute values).toMvPolynomial_eq p

end Agrees

/-- Evaluation and substitution commute with arithmetic. Substitution raises no exponent, so that it
also keeps products and powers from failing. -/
theorem evaluate_substitute_arithmetic {K : CoeffRing R} (hK : K.Lawful) {p q : Poly R} (hp : p.Canonical K)
    (hq : q.Canonical K) (n : Nat) :
    (∀ point : Assignment R, (∀ s ∈ p.vars K, s ∈ point) → (∀ s ∈ q.vars K, s ∈ point) →
      ∃ x y, p.evaluate K point = .ok x ∧ q.evaluate K point = .ok y ∧
        (p.add K q).evaluate K point = .ok (K.add x y) ∧
        (p.sub K q).evaluate K point = .ok (K.sub x y) ∧
        (p.neg K).evaluate K point = .ok (K.neg x) ∧
        (∀ r, p.mul K q = .ok r → r.evaluate K point = .ok (K.mul x y)) ∧
        ∀ r, p.pow K n = .ok r → r.evaluate K point = .ok (K.pow x n)) ∧
      ∀ values : Assignment R,
        (p.add K q).substitute K values = (p.substitute K values).add K (q.substitute K values) ∧
        (p.sub K q).substitute K values = (p.substitute K values).sub K (q.substitute K values) ∧
        (p.neg K).substitute K values = (p.substitute K values).neg K ∧
        (∀ r, p.mul K q = .ok r →
          (p.substitute K values).mul K (q.substitute K values) = .ok (r.substitute K values)) ∧
        ∀ r, p.pow K n = .ok r →
          (p.substitute K values).pow K n = .ok (r.substitute K values) := by
  let _ := hK.toCommRing
  have _ := hK.agrees
  refine ⟨?_, ?_⟩
  · intro point hps hqs
    refine ⟨_, _, hp.evaluate_eq_ok hps, hq.evaluate_eq_ok hqs, ?_, ?_, ?_, ?_, ?_⟩
    · simpa using hp.evaluate_add hq hps hqs
    · simpa using hp.evaluate_sub hq hps hqs
    · simpa using hp.evaluate_neg hps
    · intro r h
      simpa using evaluate_mul h hps hqs
    · intro r h
      simpa using evaluate_pow h hps
  · intro values
    have hsubstitute := realizes_substitute (K := K) values
    refine ⟨?_, ?_, ?_, ?_, ?_⟩
    · exact (hsubstitute.add p q).symm
    · exact (hsubstitute.sub p q).symm
    · exact (hsubstitute.neg p).symm
    · intro r h
      exact hsubstitute.mul h
    · intro r h
      exact hsubstitute.pow h

/-- Modulo four the product `(2 * x + y) * (2 * x)` is `2 * x * y`, and the square of its first factor is
`y ^ 2`. Their values are found from those of the factors. Where only `x` is replaced, by three, the
factors become `y + 2` and `2`, the product becomes `2 * y`, and the difference `y`. -/
theorem evaluate_substitute_arithmetic_modulo_four :
    let four : Modulus := ⟨4, by decide⟩
    let K : CoeffRing (Residue four) := (integersMod four).toCoeffRing
    let x : Symbol := ⟨"x"⟩
    let y : Symbol := ⟨"y"⟩
    let p : Poly (Residue four) := ofTerms K [(.ofSymbol x, K.ofInt 2), (.ofSymbol y, K.ofInt 1)]
    let q : Poly (Residue four) := ofTerms K [(.ofSymbol x, K.ofInt 2)]
    let r : Poly (Residue four) := monomial K ((Monomial.ofSymbol x).withExponent y 1) (K.ofInt 2)
    let square : Poly (Residue four) := monomial K (Monomial.one.withExponent y 2) K.one
    let point : Assignment (Residue four) := .ofList [(x, K.ofInt 3), (y, K.ofInt 1)]
    let values : Assignment (Residue four) := .ofList [(x, K.ofInt 3)]
    let p' : Poly (Residue four) := ofTerms K [(.ofSymbol y, K.one), (.one, K.ofInt 2)]
    let q' : Poly (Residue four) := constant K (K.ofInt 2)
    K.Lawful ∧ p.Canonical K ∧ q.Canonical K ∧ p.mul K q = .ok r ∧ p.pow K 2 = .ok square ∧
      (∃ a b, p.evaluate K point = .ok a ∧ q.evaluate K point = .ok b ∧
        r.evaluate K point = .ok (K.mul a b) ∧ square.evaluate K point = .ok (K.pow a 2)) ∧
      p.substitute K values = p' ∧ q.substitute K values = q' ∧
      p'.mul K q' = .ok (monomial K (.ofSymbol y) (K.ofInt 2)) ∧ p'.pow K 2 = .ok square ∧
      p'.sub K q' = symbol K y := by
  intro four K x y p q r square point values p' q'
  have hK : K.Lawful := lawful_integersMod four
  have hp : p.Canonical K := by decide +kernel
  have hq : q.Canonical K := by decide +kernel
  have hr : p.mul K q = .ok r := by decide +kernel
  have hsquare : p.pow K 2 = .ok square := by decide +kernel
  have hps : ∀ s ∈ (p.vars K).toList, s ∈ point := by decide +kernel
  have hqs : ∀ s ∈ (q.vars K).toList, s ∈ point := by decide +kernel
  rcases evaluate_substitute_arithmetic hK hp hq 2 with ⟨hevaluate, hsubstitute⟩
  rcases hevaluate point (fun s hs => hps s (Std.ExtTreeSet.mem_toList.2 hs))
    (fun s hs => hqs s (Std.ExtTreeSet.mem_toList.2 hs)) with ⟨a, b, ha, hb, -, -, -, hmul, hpow⟩
  rcases hsubstitute values with ⟨-, hsub, -, hmul', hpow'⟩
  have hp' : p.substitute K values = p' := by decide +kernel
  have hq' : q.substitute K values = q' := by decide +kernel
  have hproduct : r.substitute K values = monomial K (.ofSymbol y) (K.ofInt 2) := by decide +kernel
  have hkept : square.substitute K values = square := by decide +kernel
  have hdifference : (p.sub K q).substitute K values = symbol K y := by decide +kernel
  have hmul'' := hmul' r hr
  have hpow'' := hpow' square hsquare
  rw [hp', hq', hproduct] at hmul''
  rw [hp', hkept] at hpow''
  rw [hp', hq', hdifference] at hsub
  exact ⟨hK, hp, hq, hr, hsquare, ⟨a, b, ha, hb, hmul r hr, hpow square hsquare⟩, hp', hq', hmul'',
    hpow'', hsub.symm⟩

end Poly

end SymbolicPoly
