import SymbolicPoly.Proofs.Poly.Domain
import SymbolicPoly.Ring.Residue

/-!
# Laws — polynomials as a ring

Canonical polynomials satisfy the laws of a commutative ring, as far as the operations in a law give
results (`ring_laws`). Each law is one of `MvPolynomial Symbol R`: both sides are canonical and denote
the same polynomial there, hence they store the same terms.

What is left is when products fail. Factors can change places. Brackets cannot be moved so freely: in
`p * q` terms may vanish whose exponents would be too large for a product with `r`. Over a domain the
largest exponent of a symbol in a product is the sum of the largest ones in the factors, and then the
three factors decide together (`Canonical.exists_mul_mul_iff`).
-/

namespace SymbolicPoly

universe u

variable {R : Type u}

namespace Poly

section Agrees

variable [CommRing R] {K : CoeffRing R} [K.Agrees] {p q r s s' : Poly R}

/-! ## Sums -/

theorem add_comm_of_canonical (hp : p.Canonical K) (hq : q.Canonical K) :
    p.add K q = q.add K p := by
  apply (hp.add hq).ext_toMvPolynomial (hq.add hp)
  rw [toMvPolynomial_add, toMvPolynomial_add, add_comm]

theorem add_assoc_of_canonical (hp : p.Canonical K) (hq : q.Canonical K) (hr : r.Canonical K) :
    (p.add K q).add K r = p.add K (q.add K r) := by
  apply ((hp.add hq).add hr).ext_toMvPolynomial (hp.add (hq.add hr))
  simp only [toMvPolynomial_add, add_assoc]

theorem add_zero_of_canonical (hp : p.Canonical K) : p.add K zero = p := by
  apply (hp.add canonical_empty).ext_toMvPolynomial hp
  simp

theorem sub_self_of_canonical (hp : p.Canonical K) : p.sub K p = ∅ := by
  apply (hp.sub hp).ext_toMvPolynomial canonical_empty
  simp

theorem sub_eq_add_neg_of_canonical (hp : p.Canonical K) (hq : q.Canonical K) :
    p.sub K q = p.add K (q.neg K) := by
  apply (hp.sub hq).ext_toMvPolynomial (hp.add hq.neg)
  simp [sub_eq_add_neg]

theorem sub_eq_neg_sub_of_canonical (hp : p.Canonical K) (hq : q.Canonical K) :
    p.sub K q = (q.sub K p).neg K := by
  apply (hp.sub hq).ext_toMvPolynomial (hq.sub hp).neg
  simp

/-! ## Products -/

/-- A product that exists is the one canonical polynomial that denotes the product. -/
theorem mul_eq_ok_iff (h : ∃ r, p.mul K q = .ok r) (hr : r.Canonical K) :
    p.mul K q = .ok r ↔ r.toMvPolynomial = p.toMvPolynomial * q.toMvPolynomial := by
  constructor
  · exact toMvPolynomial_mul
  · intro hproduct
    rcases h with ⟨r', hr'⟩
    have heq : r' = r :=
      (canonical_mul hr').ext_toMvPolynomial hr ((toMvPolynomial_mul hr').trans hproduct.symm)
    exact heq ▸ hr'

theorem mul_comm_of_eq_ok (h : p.mul K q = .ok r) : q.mul K p = .ok r := by
  refine (mul_eq_ok_iff (exists_mul_comm.1 ⟨r, h⟩) (canonical_mul h)).2 ?_
  rw [toMvPolynomial_mul h, mul_comm]

theorem mul_one_of_canonical (hp : p.Canonical K) : p.mul K (one K) = .ok p := by
  refine (mul_eq_ok_iff (exists_mul_constant p K.one) hp).2 ?_
  simp

theorem mul_assoc_of_eq_ok (h : (p.mul K q >>= fun a => a.mul K r) = .ok s)
    (h' : (q.mul K r >>= fun a => p.mul K a) = .ok s') : s = s' := by
  rcases Outcome.bind_eq_ok_iff.1 h with ⟨a, ha, hs⟩
  rcases Outcome.bind_eq_ok_iff.1 h' with ⟨b, hb, hs'⟩
  -- Terms may have vanished in `a` and not in `b`, but both products denote the same.
  apply (canonical_mul hs).ext_toMvPolynomial (canonical_mul hs')
  calc
    s.toMvPolynomial
        = p.toMvPolynomial * q.toMvPolynomial * r.toMvPolynomial := by
          rw [toMvPolynomial_mul hs, toMvPolynomial_mul ha]
    _ = p.toMvPolynomial * (q.toMvPolynomial * r.toMvPolynomial) := mul_assoc _ _ _
    _ = s'.toMvPolynomial := by rw [toMvPolynomial_mul hs', toMvPolynomial_mul hb]

theorem mul_add_of_eq_ok (h : p.mul K (q.add K r) = .ok s)
    (h' : (do return (← p.mul K q).add K (← p.mul K r)) = .ok s') : s = s' := by
  rcases Outcome.bind_eq_ok_iff.1 h' with ⟨a, ha, h'⟩
  rcases Outcome.bind_eq_ok_iff.1 h' with ⟨b, hb, h'⟩
  cases h'
  apply (canonical_mul h).ext_toMvPolynomial ((canonical_mul ha).add (canonical_mul hb))
  calc
    s.toMvPolynomial
        = p.toMvPolynomial * (q.toMvPolynomial + r.toMvPolynomial) := by
          rw [toMvPolynomial_mul h, toMvPolynomial_add]
    _ = p.toMvPolynomial * q.toMvPolynomial + p.toMvPolynomial * r.toMvPolynomial := mul_add _ _ _
    _ = (a.add K b).toMvPolynomial := by
          rw [toMvPolynomial_add, toMvPolynomial_mul ha, toMvPolynomial_mul hb]

/-! ## Products of three factors over a domain -/

variable [NoZeroDivisors R]

theorem Canonical.exists_mul_mul_iff (hp : p.Canonical K) (hq : q.Canonical K) (hr : r.Canonical K)
    (hpe : p ≠ ∅) (hqe : q ≠ ∅) :
    (∃ s, (p.mul K q >>= fun a => a.mul K r) = .ok s) ↔
      ∀ v, (p.degreeIn K v).toNat + (q.degreeIn K v).toNat + (r.degreeIn K v).toNat <
        UInt32.size := by
  constructor
  · rintro ⟨s, hs⟩ v
    rcases Outcome.bind_eq_ok_iff.1 hs with ⟨a, ha, hs⟩
    rw [← hp.degreeIn_mul hq hpe hqe ha v]
    exact ((canonical_mul ha).exists_mul_iff_degreeIn hr).1 ⟨s, hs⟩ v
  · intro h
    -- Two of three exponents do not overflow if all three do not.
    rcases (hp.exists_mul_iff_degreeIn hq).2 fun v => (Nat.le_add_right _ _).trans_lt (h v)
      with ⟨a, ha⟩
    have hthird : ∃ s, a.mul K r = .ok s := by
      refine ((canonical_mul ha).exists_mul_iff_degreeIn hr).2 fun v => ?_
      rw [hp.degreeIn_mul hq hpe hqe ha v]
      exact h v
    rcases hthird with ⟨s, hs⟩
    exact ⟨s, Outcome.bind_eq_ok_iff.2 ⟨a, ha, hs⟩⟩

theorem Canonical.exists_mul_assoc (hp : p.Canonical K) (hq : q.Canonical K) (hr : r.Canonical K)
    (hpe : p ≠ ∅) (hqe : q ≠ ∅) (hre : r ≠ ∅) :
    (∃ s, (p.mul K q >>= fun a => a.mul K r) = .ok s) ↔
      ∃ s, (q.mul K r >>= fun a => p.mul K a) = .ok s := by
  -- With its factors swapped the right product has the brackets on the left, too.
  have hswap : (∃ s, (q.mul K r >>= fun a => p.mul K a) = .ok s) ↔
      ∃ s, (q.mul K r >>= fun a => a.mul K p) = .ok s := by
    simp only [Outcome.bind_eq_ok_iff]
    constructor
    · rintro ⟨s, a, ha, hs⟩
      exact ⟨s, a, ha, mul_comm_of_eq_ok hs⟩
    · rintro ⟨s, a, ha, hs⟩
      exact ⟨s, a, ha, mul_comm_of_eq_ok hs⟩
  rw [hswap, hp.exists_mul_mul_iff hq hr hpe hqe, hq.exists_mul_mul_iff hr hp hqe hre]
  simp only [Nat.add_assoc, Nat.add_comm]

end Agrees

/-- The ring laws. Where both sides of a law for products give results, these are equal. Over a domain
the two ways to put brackets into a product of three also fail together. -/
theorem ring_laws {K : CoeffRing R} (hK : K.Lawful) {p q r : Poly R} (hp : p.Canonical K)
    (hq : q.Canonical K) (hr : r.Canonical K) :
    p.add K q = q.add K p ∧
      (p.add K q).add K r = p.add K (q.add K r) ∧
      p.add K zero = p ∧ zero.add K p = p ∧
      (p.sub K p).isEmpty = true ∧
      p.sub K q = p.add K (q.neg K) ∧ p.sub K q = (q.sub K p).neg K ∧
      (∀ s, p.mul K q = .ok s ↔ q.mul K p = .ok s) ∧
      p.mul K (one K) = .ok p ∧
      (∀ s s', (p.mul K q >>= fun a => a.mul K r) = .ok s →
        (q.mul K r >>= fun a => p.mul K a) = .ok s' → s = s') ∧
      (∀ s s', p.mul K (q.add K r) = .ok s →
        (do return (← p.mul K q).add K (← p.mul K r)) = .ok s' → s = s') ∧
      ((∀ a b, K.mul a b = K.zero → a = K.zero ∨ b = K.zero) →
        p.isEmpty = false → q.isEmpty = false → r.isEmpty = false →
        ((∃ s, (p.mul K q >>= fun a => a.mul K r) = .ok s) ↔
          ∃ s, (q.mul K r >>= fun a => p.mul K a) = .ok s)) := by
  let _ := hK.toCommRing
  have _ := hK.agrees
  have hzero : p.add K zero = p := add_zero_of_canonical hp
  refine ⟨add_comm_of_canonical hp hq, add_assoc_of_canonical hp hq hr, hzero, ?_, ?_,
    sub_eq_add_neg_of_canonical hp hq, sub_eq_neg_sub_of_canonical hp hq, ?_,
    mul_one_of_canonical hp, ?_, ?_, ?_⟩
  · exact (add_comm_of_canonical canonical_empty hp).trans hzero
  · exact isEmpty_eq_true_iff.2 (sub_self_of_canonical hp)
  · intro s
    exact ⟨mul_comm_of_eq_ok, mul_comm_of_eq_ok⟩
  · intro s s' h h'
    exact mul_assoc_of_eq_ok h h'
  · intro s s' h h'
    exact mul_add_of_eq_ok h h'
  · intro hdomain hpe hqe hre
    have _ : NoZeroDivisors R := CoeffRing.noZeroDivisors hdomain
    exact hp.exists_mul_assoc hq hr (isEmpty_eq_false_iff.1 hpe) (isEmpty_eq_false_iff.1 hqe)
      (isEmpty_eq_false_iff.1 hre)

/-- In `(x + 1) * (x - 1) * x ^ 4294967294` all that is multiplied first exists, and the whole product
fails in both ways to compute it. -/
theorem ring_laws_overflow :
    let x : Monomial := .ofSymbol ⟨"x"⟩
    let p : Poly Int := ofTerms integers [(x, 1), (.one, 1)]
    let q : Poly Int := ofTerms integers [(x, 1), (.one, -1)]
    let r : Poly Int := monomial integers (Monomial.one.withExponent ⟨"x"⟩ 4294967294) 1
    integers.Lawful ∧ integers.IsDomain ∧
      p.Canonical integers ∧ q.Canonical integers ∧ r.Canonical integers ∧
      p.isEmpty = false ∧ q.isEmpty = false ∧ r.isEmpty = false ∧
      (p.add integers q).add integers r = p.add integers (q.add integers r) ∧
      (∃ a, p.mul integers q = .ok a) ∧ (∃ a, q.mul integers r = .ok a) ∧
      (¬ ∃ s, (p.mul integers q >>= fun a => a.mul integers r) = .ok s) ∧
      ¬ ∃ s, (q.mul integers r >>= fun a => p.mul integers a) = .ok s := by
  intro x p q r
  have hp : p.Canonical integers := by decide +kernel
  have hq : q.Canonical integers := by decide +kernel
  have hr : r.Canonical integers := canonical_monomial _ _
  have hpe : p.isEmpty = false := by decide +kernel
  have hqe : q.isEmpty = false := by decide +kernel
  have hre : r.isEmpty = false := by decide +kernel
  have hpq : (p.mul integers q).isOk = true := by decide +kernel
  have hqr : (q.mul integers r).isOk = true := by decide +kernel
  have hfail : (p.mul integers q >>= fun a => a.mul integers r).isOk = false := by decide +kernel
  rcases ring_laws lawful_integers hp hq hr with ⟨-, hassoc, -, -, -, -, -, -, -, -, -, hbrackets⟩
  have hleft : ¬ ∃ s, (p.mul integers q >>= fun a => a.mul integers r) = .ok s := by
    rintro ⟨s, hs⟩
    cases hfail.symm.trans (congrArg Except.isOk hs)
  have hiff := hbrackets isDomain_integers.eq_zero_or_eq_zero hpe hqe hre
  exact ⟨lawful_integers, isDomain_integers, hp, hq, hr, hpe, hqe, hre, hassoc,
    Outcome.exists_eq_ok_of_isOk hpq, Outcome.exists_eq_ok_of_isOk hqr, hleft, mt hiff.2 hleft⟩

/-- With zero divisors the brackets matter: modulo four `(2 * x) * (2 * y)` vanishes, and with it the
exponent that is too large. -/
example :
    let four : Modulus := ⟨4, by decide⟩
    let K : CoeffRing (Residue four) := (integersMod four).toCoeffRing
    let p : Poly (Residue four) := monomial K (.ofSymbol ⟨"x"⟩) (K.ofInt 2)
    let q : Poly (Residue four) := monomial K (.ofSymbol ⟨"y"⟩) (K.ofInt 2)
    let r : Poly (Residue four) := monomial K (Monomial.one.withExponent ⟨"x"⟩ 4294967295) K.one
    (p.mul K q >>= fun a => a.mul K r).isOk = true ∧
      (q.mul K r >>= fun a => p.mul K a).isOk = false := by
  decide +kernel

end Poly

end SymbolicPoly
