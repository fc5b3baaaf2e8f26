import SymbolicPoly.Proofs.Poly.Laws
import SymbolicPoly.Proofs.Ring.Modular

/-!
# Powers — what repeated squaring computes, and when it fails

A power that exists is the power in `MvPolynomial Symbol R`, where exponents are not bounded
(`pow_is_formal_power`). Hence it does not matter by which products it is computed: multiplying by
the base again and again, and splitting the exponent into a sum or a product, give the same
polynomial wherever they give one.

They need not fail together. With zero divisors terms may vanish in one of the intermediate products
and not in another. What can be said for all rings is that squaring never goes too far: if `n` times
the largest exponent of each symbol is an exponent, then the `n`-th power exists. Over a domain the
converse holds too (`pow_overflow_iff`).
-/

namespace SymbolicPoly

universe u

variable {R : Type u}

namespace Poly

/-- One times `p` times `p` and so on, `n` factors multiplied from the right. -/
def repeatedProduct (K : CoeffRing R) (p : Poly R) : Nat → Except ExponentOverflow (Poly R)
  | 0 => .ok (one K)
  | n + 1 => do mul K (← repeatedProduct K p n) p

section Agrees

variable [CommRing R] {K : CoeffRing R} [K.Agrees] {p q r s x y z : Poly R} {a b n : Nat}

/-! ## Powers in the ring of Mathlib -/

theorem toMvPolynomial_repeatedProduct (h : p.repeatedProduct K n = .ok r) :
    r.toMvPolynomial = p.toMvPolynomial ^ n := by
  induction n generalizing r with
  | zero =>
      cases h
      simp
  | succ n ih =>
      rcases Outcome.bind_eq_ok_iff.1 h with ⟨q, hq, hr⟩
      calc
        r.toMvPolynomial = q.toMvPolynomial * p.toMvPolynomial := toMvPolynomial_mul hr
        _ = p.toMvPolynomial ^ n * p.toMvPolynomial := by rw [ih hq]
        _ = p.toMvPolynomial ^ (n + 1) := (pow_succ _ n).symm

theorem canonical_repeatedProduct (h : p.repeatedProduct K n = .ok r) : r.Canonical K := by
  cases n with
  | zero =>
      cases h
      exact canonical_one
  | succ n =>
      rcases Outcome.bind_eq_ok_iff.1 h with ⟨q, -, hr⟩
      exact canonical_mul hr

theorem eq_of_pow_of_repeatedProduct (h : p.pow K n = .ok r) (h' : p.repeatedProduct K n = .ok s) :
    r = s := by
  apply (canonical_pow h).ext_toMvPolynomial (canonical_repeatedProduct h')
  exact (toMvPolynomial_pow h).trans (toMvPolynomial_repeatedProduct h').symm

theorem pow_add_of_eq_ok (h : p.pow K (a + b) = .ok r) (hx : p.pow K a = .ok x)
    (hy : p.pow K b = .ok y) (hz : x.mul K y = .ok z) : r = z := by
  apply (canonical_pow h).ext_toMvPolynomial (canonical_mul hz)
  calc
    r.toMvPolynomial = p.toMvPolynomial ^ (a + b) := toMvPolynomial_pow h
    _ = p.toMvPolynomial ^ a * p.toMvPolynomial ^ b := pow_add _ a b
    _ = x.toMvPolynomial * y.toMvPolynomial := by
          rw [toMvPolynomial_pow hx, toMvPolynomial_pow hy]
    _ = z.toMvPolynomial := (toMvPolynomial_mul hz).symm

theorem pow_mul_of_eq_ok (h : p.pow K (a * b) = .ok r) (hx : p.pow K a = .ok x)
    (hz : x.pow K b = .ok z) : r = z := by
  apply (canonical_pow h).ext_toMvPolynomial (canonical_pow hz)
  calc
    r.toMvPolynomial = p.toMvPolynomial ^ (a * b) := toMvPolynomial_pow h
    _ = (p.toMvPolynomial ^ a) ^ b := pow_mul _ a b
    _ = x.toMvPolynomial ^ b := by rw [toMvPolynomial_pow hx]
    _ = z.toMvPolynomial := (toMvPolynomial_pow hz).symm

/-- Exponents that are too large for a monomial do not occur in a power that exists. -/
theorem coeff_pow_eq_zero (h : p.pow K n = .ok r) {d : Symbol →₀ Nat}
    (hd : ∀ m : Monomial, m.toFinsupp ≠ d) : (p.toMvPolynomial ^ n).coeff d = 0 := by
  rw [← toMvPolynomial_pow h]
  exact coeff_termSum_eq_zero r.toList hd

/-! ## When powers exist -/

/-- What the loop keeps while it computes a power: both polynomials are canonical, and in the
product that is still to be formed no symbol gets too large an exponent. -/
structure PowerFits (K : CoeffRing R) (acc base : Poly R) (n : Nat) : Prop where
  acc_canonical : acc.Canonical K
  base_canonical : base.Canonical K
  degreeIn_lt : ∀ v, (acc.degreeIn K v).toNat + n * (base.degreeIn K v).toNat < UInt32.size

namespace PowerFits

variable {acc base : Poly R}

theorem digit (h : PowerFits K acc base n) (hn : n % 2 = 1) :
    ∃ next, acc.mul K base = .ok next ∧ PowerFits K next base (n - 1) := by
  have hsplit : ∀ d : Nat, n * d = d + (n - 1) * d := by
    intro d
    have hpred : n = 1 + (n - 1) := by omega
    calc
      n * d = (1 + (n - 1)) * d := by rw [← hpred]
      _ = d + (n - 1) * d := by rw [Nat.add_mul, Nat.one_mul]
  have hexists : ∃ next, acc.mul K base = .ok next := by
    refine (h.acc_canonical.exists_mul_iff_degreeIn h.base_canonical).2 fun v => ?_
    have hlt := h.degreeIn_lt v
    rw [hsplit] at hlt
    omega
  rcases hexists with ⟨next, hnext⟩
  refine ⟨next, hnext, canonical_mul hnext, h.base_canonical, ?_⟩
  intro v
  have hle := degreeIn_mul_le hnext v
  have hlt := h.degreeIn_lt v
  rw [hsplit] at hlt
  omega

/-- A digit is left, so the square is no larger than what is still to be multiplied. -/
theorem square (h : PowerFits K acc base n) (heven : n % 2 = 0) (hn : n ≠ 0) :
    ∃ next, base.mul K base = .ok next ∧ PowerFits K acc next (n / 2) := by
  have hhalf : ∀ d : Nat, n * d = n / 2 * (d + d) := by
    intro d
    have htwo : n = n / 2 * 2 := by omega
    calc
      n * d = n / 2 * 2 * d := by rw [← htwo]
      _ = n / 2 * (d + d) := by rw [Nat.mul_assoc, Nat.two_mul]
  have hexists : ∃ next, base.mul K base = .ok next := by
    refine (h.base_canonical.exists_mul_iff_degreeIn h.base_canonical).2 fun v => ?_
    have hpos : 1 ≤ n / 2 := by omega
    have hlt := h.degreeIn_lt v
    rw [hhalf] at hlt
    have hle := Nat.mul_le_mul_right ((base.degreeIn K v).toNat + (base.degreeIn K v).toNat) hpos
    omega
  rcases hexists with ⟨next, hnext⟩
  refine ⟨next, hnext, h.acc_canonical, canonical_mul hnext, ?_⟩
  intro v
  have hle := Nat.mul_le_mul_left (n / 2) (degreeIn_mul_le hnext v)
  have hlt := h.degreeIn_lt v
  rw [hhalf] at hlt
  omega

end PowerFits

theorem Canonical.exists_pow_of_degreeIn (hp : p.Canonical K)
    (h : ∀ v, n * (p.degreeIn K v).toNat < UInt32.size) : ∃ r, p.pow K n = .ok r := by
  have hstart : PowerFits K (one K) p n := by
    refine ⟨canonical_one, hp, fun v => ?_⟩
    simpa [degreeIn_one] using h v
  exact exists_repeatOpM_eq_ok (fun hn hmotive => hmotive.digit hn)
    (fun heven hn hmotive => hmotive.square heven hn) hstart

theorem Canonical.degreeIn_pow [NoZeroDivisors R] [Nontrivial R] (hp : p.Canonical K) (hpe : p ≠ ∅)
    (h : p.pow K n = .ok r) (v : Symbol) :
    (r.degreeIn K v).toNat = n * (p.degreeIn K v).toNat := by
  have hzero := hp.toMvPolynomial_ne_zero hpe
  have hr : r.toMvPolynomial ≠ 0 := by
    rw [toMvPolynomial_pow h]
    exact pow_ne_zero n hzero
  have hmax := isGreatest_degreeIn (K := K) hr v
  rw [toMvPolynomial_pow h] at hmax
  exact hmax.unique (Leading.isGreatest_weight_pow (isGreatest_degreeIn hzero v) n)

theorem Canonical.exists_pow_iff_degreeIn [NoZeroDivisors R] [Nontrivial R] (hp : p.Canonical K) :
    (∃ r, p.pow K n = .ok r) ↔ ∀ v, n * (p.degreeIn K v).toNat < UInt32.size := by
  constructor
  · rintro ⟨r, hr⟩ v
    by_cases hpe : p = ∅
    · simp [hpe, degreeIn_empty]
    · rw [← hp.degreeIn_pow hpe hr v]
      exact (r.degreeIn K v).toNat_lt_size
  · exact hp.exists_pow_of_degreeIn

end Agrees

/-- Powers are powers of formal polynomials, in whichever way they are computed. -/
theorem pow_is_formal_power {K : CoeffRing R} (hK : K.Lawful) (p : Poly R) :
    letI := hK.toCommRing
    (∀ n r, p.pow K n = .ok r →
      r.Canonical K ∧
        (∀ m : Monomial, r.coeff K m = (p.toMvPolynomial ^ n).coeff m.toFinsupp) ∧
        (∀ d, (∀ m : Monomial, m.toFinsupp ≠ d) → (p.toMvPolynomial ^ n).coeff d = 0) ∧
        ∀ s, p.repeatedProduct K n = .ok s → r = s) ∧
      (∀ a b r x y z, p.pow K (a + b) = .ok r → p.pow K a = .ok x → p.pow K b = .ok y →
        x.mul K y = .ok z → r = z) ∧
      ∀ a b r x z, p.pow K (a * b) = .ok r → p.pow K a = .ok x → x.pow K b = .ok z → r = z := by
  let _ := hK.toCommRing
  have _ := hK.agrees
  refine ⟨?_, ?_, ?_⟩
  · intro n r h
    refine ⟨canonical_pow h, ?_, ?_, ?_⟩
    · intro m
      rw [← toMvPolynomial_pow h, coeff_toMvPolynomial (K := K)]
    · intro d hd
      exact coeff_pow_eq_zero h hd
    · intro s hs
      exact eq_of_pow_of_repeatedProduct h hs
  · intro a b r x y z h hx hy hz
    exact pow_add_of_eq_ok h hx hy hz
  · intro a b r x z h hx hz
    exact pow_mul_of_eq_ok h hx hz

/-- Modulo eight the fourth power of `2 * x + 1` is one, in all ways to compute it. The coefficient
zero that is stored at `y` does not matter. -/
theorem pow_is_formal_power_modulo_eight :
    let eight : Modulus := ⟨8, by decide⟩
    let K : CoeffRing (Residue eight) := (integersMod eight).toCoeffRing
    let p : Poly (Residue eight) := ofStoredTerms
      [(.ofSymbol ⟨"x"⟩, K.ofInt 2), (.ofSymbol ⟨"y"⟩, K.zero), (.one, K.one)]
    K.Lawful ∧ ∃ r x, p.pow K 4 = .ok r ∧ r.Canonical K ∧ r = one K ∧
      p.repeatedProduct K 4 = .ok r ∧
      p.pow K 2 = .ok x ∧ x.size = 3 ∧ x.mul K x = .ok r ∧ x.pow K 2 = .ok r := by
  intro eight K p
  have hK : K.Lawful := lawful_integersMod eight
  have hrun : (p.pow K 4).toOption.map (decide <| · = one K) = some true := by decide +kernel
  have hsize : (p.pow K 2).toOption.map Poly.size = some 3 := by decide +kernel
  have hchain : (p.repeatedProduct K 4).isOk = true := by decide +kernel
  have hproduct : (p.pow K 2 >>= fun x => x.mul K x).isOk = true := by decide +kernel
  have hsquare : (p.pow K 2 >>= fun x => x.pow K 2).isOk = true := by decide +kernel
  rcases pow_is_formal_power hK p with ⟨hpower, hadd, hmul⟩
  rcases Outcome.exists_eq_ok_of_toOption_map hrun with ⟨r, hr, hone⟩
  rcases Outcome.exists_eq_ok_of_toOption_map hsize with ⟨x, hx, hsize⟩
  rcases Outcome.exists_eq_ok_of_isOk hchain with ⟨s, hs⟩
  rcases Outcome.exists_eq_ok_of_isOk hproduct with ⟨z, hz⟩
  rcases Outcome.exists_eq_ok_of_isOk hsquare with ⟨w, hw⟩
  rw [hx] at hz hw
  rcases hpower 4 r hr with ⟨hcanonical, -, -, heq⟩
  cases heq s hs
  cases hadd 2 2 r x x z hr hx hx hz
  cases hmul 2 2 r x w hr hx hw
  exact ⟨hK, r, x, hr, hcanonical, of_decide_eq_true hone, hs, hx, hsize, hz, hw⟩

/-- If no symbol gets too large an exponent in the result, repeated squaring does not overflow on
the way. Over a domain the powers that overflow are exactly the others. -/
theorem pow_overflow_iff {K : CoeffRing R} (hK : K.Lawful) {p : Poly R} (hp : p.Canonical K)
    (n : Nat) :
    ((∀ v, n * (p.degreeIn K v).toNat ≤ 4294967295) → ∃ r, p.pow K n = .ok r) ∧
      (K.IsDomain →
        ((∃ e, p.pow K n = .error e) ↔ ∃ v, 4294967295 < n * (p.degreeIn K v).toNat)) := by
  let _ := hK.toCommRing
  have _ := hK.agrees
  have hsize : ∀ k : Nat, k < UInt32.size ↔ k ≤ 4294967295 := fun k => Nat.lt_succ_iff
  refine ⟨?_, ?_⟩
  · intro h
    exact hp.exists_pow_of_degreeIn fun v => (hsize _).2 (h v)
  · intro hdomain
    have _ : NoZeroDivisors R := CoeffRing.noZeroDivisors hdomain.eq_zero_or_eq_zero
    have _ : Nontrivial R := ⟨K.one, K.zero, hdomain.one_ne_zero⟩
    have hexists := hp.exists_pow_iff_degreeIn (n := n)
    simp only [hsize] at hexists
    have herror : (∃ e, p.pow K n = .error e) ↔ ¬ ∃ r, p.pow K n = .ok r := by
      cases p.pow K n with
      | error e => simp
      | ok r => simp
    rw [herror, hexists]
    simp

/-- The largest exponent is three times 1431655765. The cube of a polynomial with that exponent
exists, its fourth power does not. -/
theorem pow_overflow_iff_largest_exponent :
    let x : Monomial := Monomial.one.withExponent ⟨"x"⟩ 1431655765
    let p : Poly Int := ofTerms integers [(x, 1), (.ofSymbol ⟨"y"⟩, -1)]
    integers.Lawful ∧ integers.IsDomain ∧ p.Canonical integers ∧
      (∀ v, 3 * (p.degreeIn integers v).toNat ≤ 4294967295) ∧ (∃ r, p.pow integers 3 = .ok r) ∧
      ∃ e, p.pow integers 4 = .error e := by
  intro x p
  have hp : p.Canonical integers := by decide +kernel
  have hvars : (p.vars integers).toList = [⟨"x"⟩, ⟨"y"⟩] := by decide +kernel
  have hx : (p.degreeIn integers ⟨"x"⟩).toNat = 1431655765 := by decide +kernel
  have hy : (p.degreeIn integers ⟨"y"⟩).toNat = 1 := by decide +kernel
  have hsmall : ∀ v, 3 * (p.degreeIn integers v).toNat ≤ 4294967295 := by
    intro v
    by_cases hv : v ∈ p.vars integers
    · rcases (by simpa [hvars] using Std.ExtTreeSet.mem_toList.2 hv : v = ⟨"x"⟩ ∨ v = ⟨"y"⟩) with
        rfl | rfl
      · omega
      · omega
    · have hzero : p.degreeIn integers v = 0 := by simpa [mem_vars_iff_degreeIn] using hv
      simp [hzero]
  have hcube := (pow_overflow_iff lawful_integers hp 3).1 hsmall
  have hfourth := (pow_overflow_iff lawful_integers hp 4).2 isDomain_integers
  exact ⟨lawful_integers, isDomain_integers, hp, hsmall, hcube, hfourth.2 ⟨⟨"x"⟩, by omega⟩⟩

end Poly

end SymbolicPoly
