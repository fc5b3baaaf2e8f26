import SymbolicPoly.Proofs.Poly.Composition
import SymbolicPoly.Proofs.Poly.Power

/-!
# Composition overflow — when polynomials can be put in

A composition fails only in one of the terms (`exists_compose_iff`). There each assigned factor brings
in a power, and the powers and the remaining factors are multiplied one after the other. None of this
overflows if the largest exponents that a symbol has in the powers and its exponent in the rest add up
to an exponent (`exists_composeTerm_of_degreeIn`).
-/

namespace SymbolicPoly

universe u

namespace Poly

variable {R : Type u} {K : CoeffRing R} {values : Assignment (Poly R)}

/-- A sum of exponents that the symbol `s` cannot exceed in the powers that come into the place of the
factors in the list. -/
def replacedExponent (K : CoeffRing R) (values : Assignment (Poly R)) (fs : List (Symbol × UInt32))
    (s : Symbol) : Nat :=
  (fs.map fun f =>
    match values[f.1]? with
    | some w => f.2.toNat * (w.degreeIn K s).toNat
    | none => 0).sum

section

variable {f : Symbol × UInt32} {fs : List (Symbol × UInt32)} {w : Poly R}

@[simp]
theorem replacedExponent_nil (s : Symbol) : replacedExponent K values [] s = 0 :=
  rfl

theorem replacedExponent_cons_of_eq_some (h : values[f.1]? = some w) (s : Symbol) :
    replacedExponent K values (f :: fs) s =
      f.2.toNat * (w.degreeIn K s).toNat + replacedExponent K values fs s := by
  simp [replacedExponent, h]

theorem replacedExponent_cons_of_eq_none (h : values[f.1]? = none) (s : Symbol) :
    replacedExponent K values (f :: fs) s = replacedExponent K values fs s := by
  simp [replacedExponent, h]

end

variable [CommRing R] [K.Agrees]

/-! ## One term -/

/-- The product of the powers never gets ahead of what the factors read so far can bring in. -/
theorem exists_imageOfFactors_of_degreeIn {fs : List (Symbol × UInt32)}
    (hvalues : ∀ (s : Symbol) (w : Poly R), values[s]? = some w → w.Canonical K)
    (h : ∀ s, replacedExponent K values fs s < UInt32.size) :
    ∃ image, imageOfFactors K values fs = .ok image ∧ image.Canonical K ∧
      ∀ s, (image.degreeIn K s).toNat ≤ replacedExponent K values fs s := by
  -- The factors that are left to read keep room for themselves.
  have hrun : ∃ image, imageOfFactors K values fs = .ok image ∧ image.Canonical K ∧
      ∀ s, (image.degreeIn K s).toNat + replacedExponent K values [] s ≤
        replacedExponent K values fs s := by
    refine Outcome.exists_foldlM_eq_ok
      (motive := fun (acc : Poly R) rest => acc.Canonical K ∧
        ∀ s, (acc.degreeIn K s).toNat + replacedExponent K values rest s ≤
          replacedExponent K values fs s) ?_ ⟨canonical_one, fun s => by simp [degreeIn_one]⟩
    rintro acc f rest ⟨hacc, hroom⟩
    cases hf : values[f.1]? with
    | none =>
        simp only [replacedExponent_cons_of_eq_none hf] at hroom
        exact ⟨acc, rfl, hacc, hroom⟩
    | some w =>
        simp only [replacedExponent_cons_of_eq_some hf] at hroom
        have hpower : ∃ power, w.pow K f.2.toNat = .ok power := by
          refine (hvalues _ w hf).exists_pow_of_degreeIn fun s => ?_
          have hs := hroom s
          have hlt := h s
          omega
        rcases hpower with ⟨power, hpower⟩
        have hnext : ∃ next, acc.mul K power = .ok next := by
          refine (hacc.exists_mul_iff_degreeIn (canonical_pow hpower)).2 fun s => ?_
          have hle := degreeIn_pow_le hpower s
          have hs := hroom s
          have hlt := h s
          omega
        rcases hnext with ⟨next, hnext⟩
        refine ⟨next, Outcome.bind_eq_ok_iff.2 ⟨power, hpower, hnext⟩, canonical_mul hnext, ?_⟩
        intro s
        have hle := degreeIn_mul_le hnext s
        have hle' := degreeIn_pow_le hpower s
        have hs := hroom s
        omega
  simpa using hrun

theorem exists_composeTerm_of_degreeIn {t : Monomial × R}
    (hvalues : ∀ (s : Symbol) (w : Poly R), values[s]? = some w → w.Canonical K)
    (h : ∀ s, replacedExponent K values t.1.factors s +
      ((t.1.unassigned values).exponent s).toNat < UInt32.size) :
    ∃ r, composeTerm K values t = .ok r := by
  rcases exists_imageOfFactors_of_degreeIn hvalues fun s => (Nat.le_add_right _ _).trans_lt (h s) with
    ⟨image, himage, hcanonical, hdegree⟩
  have hproduct : ∃ r, image.mul K (monomial K (t.1.unassigned values) t.2) = .ok r := by
    refine (hcanonical.exists_mul_iff_degreeIn (canonical_monomial _ _)).2 fun s => ?_
    exact (Nat.add_le_add (hdegree s) (degreeIn_monomial_le _ _ s)).trans_lt (h s)
  rcases hproduct with ⟨r, hr⟩
  exact ⟨r, Outcome.bind_eq_ok_iff.2 ⟨image, himage, hr⟩⟩

end Poly

end SymbolicPoly
