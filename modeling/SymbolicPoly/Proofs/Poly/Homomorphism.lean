import SymbolicPoly.Proofs.Poly.Overflow
import SymbolicPoly.Proofs.Poly.MvPolynomial

/-!
# Homomorphism — functions on polynomials that commute with arithmetic

Functions such as mapping the coefficients to another ring, or putting values in the place of
symbols, are given by ring homomorphisms between the rings `MvPolynomial Symbol R`, where nothing
overflows. `Realizes` says that a function does on stored polynomials what a homomorphism does on
those that they denote, and that no exponent grows.

Such a function commutes with sums, differences and negatives. It also commutes with products and
powers: where the result exists for the arguments, it exists for their images (`Realizes.mul`,
`Realizes.pow`). Terms may vanish on the way, so the converse does not hold.
-/

namespace SymbolicPoly

universe u v

namespace Poly

variable {R : Type u} {S : Type v} [CommRing R] [CommRing S]

/-- On what polynomials denote, `f` is the homomorphism `φ`. No stored zeros come out, and every
monomial that comes out divides one that went in. -/
structure Realizes (L : CoeffRing S) (f : Poly R → Poly S)
    (φ : MvPolynomial Symbol R →+* MvPolynomial Symbol S) : Prop where
  canonical : ∀ p, (f p).Canonical L
  toMvPolynomial_eq : ∀ p, (f p).toMvPolynomial = φ p.toMvPolynomial
  exponent_le : ∀ p, ∀ t ∈ (f p).toList, ∃ u ∈ p.toList, ∀ s,
    (t.1.exponent s).toNat ≤ (u.1.exponent s).toNat

namespace Realizes

variable {K : CoeffRing R} {L : CoeffRing S} [K.Agrees] [L.Agrees] {f : Poly R → Poly S}
  {φ : MvPolynomial Symbol R →+* MvPolynomial Symbol S} {p q r : Poly R}

omit [K.Agrees] in
/-- A function that changes each term for itself and collects the results. -/
theorem of_terms {g : Monomial × R → Monomial × S}
    (hterm : ∀ t, MvPolynomial.monomial (g t).1.toFinsupp (g t).2 =
      φ (MvPolynomial.monomial t.1.toFinsupp t.2))
    (hexponent : ∀ t s, ((g t).1.exponent s).toNat ≤ (t.1.exponent s).toNat) :
    Realizes L (fun p => ofTerms L (p.toList.map g)) φ where
  canonical p := canonical_ofTerms (p.toList.map g)
  toMvPolynomial_eq p :=
    (toMvPolynomial_ofTerms (p.toList.map g)).trans
      (termSum_map φ.toAddMonoidHom fun t _ => hterm t)
  exponent_le p t ht := by
    -- Collecting terms brings in no monomial that is not listed.
    rcases exists_of_mem_toList_ofTerms ht with ⟨u, hu, hkey⟩
    rcases List.mem_map.1 hu with ⟨t', ht', rfl⟩
    exact ⟨t', ht', fun s => hkey ▸ hexponent t' s⟩

/-- The image is the only canonical polynomial that denotes what it has to. -/
theorem eq_of_toMvPolynomial_eq (h : Realizes L f φ) {r' : Poly S} (hr' : r'.Canonical L)
    (heq : r'.toMvPolynomial = φ r.toMvPolynomial) : r' = f r :=
  hr'.ext_toMvPolynomial (h.canonical r) (heq.trans (h.toMvPolynomial_eq r).symm)

/-! ## Sums -/

theorem add (h : Realizes L f φ) (p q : Poly R) : (f p).add L (f q) = f (p.add K q) := by
  apply h.eq_of_toMvPolynomial_eq ((h.canonical p).add (h.canonical q))
  simp [h.toMvPolynomial_eq]

theorem sub (h : Realizes L f φ) (p q : Poly R) : (f p).sub L (f q) = f (p.sub K q) := by
  apply h.eq_of_toMvPolynomial_eq ((h.canonical p).sub (h.canonical q))
  simp [h.toMvPolynomial_eq]

theorem neg (h : Realizes L f φ) (p : Poly R) : (f p).neg L = f (p.neg K) := by
  apply h.eq_of_toMvPolynomial_eq (h.canonical p).neg
  simp [h.toMvPolynomial_eq]

/-! ## Products -/

theorem one (h : Realizes L f φ) : Poly.one L = f (Poly.one K) := by
  apply h.eq_of_toMvPolynomial_eq canonical_one
  simp

omit [K.Agrees] [L.Agrees] in
/-- Smaller exponents do not overflow either. -/
theorem exists_mul (h : Realizes L f φ) (hmul : ∃ r, p.mul K q = .ok r) :
    ∃ r, (f p).mul L (f q) = .ok r := by
  rw [exists_mul_eq_ok_iff] at hmul ⊢
  intro t ht t' ht'
  rcases h.exponent_le p t ht with ⟨u, hu, hle⟩
  rcases h.exponent_le q t' ht' with ⟨u', hu', hle'⟩
  refine Monomial.exists_mul_eq_ok_iff.2 fun s => ?_
  exact (Nat.add_le_add (hle s) (hle' s)).trans_lt
    (Monomial.exists_mul_eq_ok_iff.1 (hmul u hu u' hu') s)

theorem mul (h : Realizes L f φ) (hmul : p.mul K q = .ok r) :
    (f p).mul L (f q) = .ok (f r) := by
  rcases h.exists_mul ⟨r, hmul⟩ with ⟨r', hr'⟩
  have heq : r' = f r := by
    apply h.eq_of_toMvPolynomial_eq (canonical_mul hr')
    rw [toMvPolynomial_mul hr', toMvPolynomial_mul hmul, map_mul, h.toMvPolynomial_eq,
      h.toMvPolynomial_eq]
  exact heq ▸ hr'

theorem pow (h : Realizes L f φ) {n : Nat} (hpow : p.pow K n = .ok r) :
    (f p).pow L n = .ok (f r) := by
  -- Both runs read the digits of the same exponent.
  have hrun := repeatOpM_map f h.mul hpow
  rwa [← h.one] at hrun

end Realizes

end Poly

end SymbolicPoly
