import Mathlib.Algebra.MvPolynomial.Eval
import SymbolicPoly.Proofs.Operand.Lifting
import SymbolicPoly.Proofs.Poly.Homomorphism
import SymbolicPoly.Proofs.Ring.IntegerImage

/-!
# Expression — the same arithmetic over different rings

An expression is made of integers and symbols. It has a value over every coefficient ring, and the
value over the integers decides about all others: over a ring it is the polynomial whose integer
coefficients have been replaced by multiples of one (`value_over_rings`). So one may compute over the
integers and reduce at the end.

Over the two rings different terms vanish on the way, and different paths are taken. What carries the
induction is that an operation over the ring, applied to the images of two operands, gives the image
of what it gives over the integers (`Operand.add_image` and the rest).
-/

namespace SymbolicPoly

universe u

/-! ## Images of polynomials and operands -/

namespace Poly

variable {R : Type u}

/-- The polynomial with its integer coefficients mapped into the ring. -/
def image (K : CoeffRing R) (p : Poly Int) : Poly R :=
  ofTerms K (p.toList.map fun t => (t.1, K.timesOne t.2))

variable [CommRing R] {K : CoeffRing R} [K.Agrees]

theorem realizes_image : Realizes K (image K) (MvPolynomial.map (Int.castRingHom R)) :=
  Realizes.of_terms (by simp [MvPolynomial.map_monomial]) fun _ _ => Nat.le_refl _

end Poly

namespace Operand

variable {R : Type u}

/-- The operand with its integer coefficients mapped into the ring. -/
def image (K : CoeffRing R) : Operand Int → Operand R
  | .int n => .int n
  | .constant c => .constant (K.timesOne c)
  | .symbol s => .symbol s
  | .poly p => .poly (p.image K)

variable [CommRing R] {K : CoeffRing R} [K.Agrees] {x y : Operand Int} {r : Poly Int}

theorem canonical_image (x : Operand Int) : (x.image K).Canonical K := by
  cases x with
  | poly p =>
      exact canonical_poly_iff.2 (Poly.realizes_image.canonical p)
  | _ =>
      intro p hp
      cases hp

theorem lift_image (x : Operand Int) : (x.image K).lift K = (x.lift integers).image K := by
  cases x with
  | int n =>
      apply Poly.realizes_image.eq_of_toMvPolynomial_eq (Poly.canonical_monomial .one (K.ofInt n))
      simp [lift, form]
  | constant c =>
      apply Poly.realizes_image.eq_of_toMvPolynomial_eq
        (Poly.canonical_monomial .one (K.timesOne c))
      simp [lift, form]
  | symbol s =>
      apply Poly.realizes_image.eq_of_toMvPolynomial_eq (Poly.canonical_monomial (.ofSymbol s) K.one)
      simp [lift, form, MvPolynomial.X]
  | poly p =>
      -- Nothing is left to lift.
      rfl

/-! ## Operations on images

The paths of mixed operands need not match over the two rings: a coefficient may be one or zero over
the one and not over the other. Lifting both sides first leads to the one path for polynomials.
-/

theorem add_image (hx : x.Canonical integers) (hy : y.Canonical integers) :
    (x.image K).add K (y.image K) = (x.add integers y).image K := by
  rw [add_eq_add_lift (canonical_image x) (canonical_image y), add_eq_add_lift hx hy, lift_image,
    lift_image]
  exact Poly.realizes_image.add (x.lift integers) (y.lift integers)

theorem sub_image (hx : x.Canonical integers) (hy : y.Canonical integers) :
    (x.image K).sub K (y.image K) = (x.sub integers y).image K := by
  rw [sub_eq_sub_lift (canonical_image x) (canonical_image y), sub_eq_sub_lift hx hy, lift_image,
    lift_image]
  exact Poly.realizes_image.sub (x.lift integers) (y.lift integers)

theorem neg_image (hx : x.Canonical integers) :
    (x.image K).neg K = (x.neg integers).image K := by
  rw [neg_eq_neg_lift (canonical_image x), neg_eq_neg_lift hx, lift_image]
  exact Poly.realizes_image.neg (x.lift integers)

theorem mul_image (hx : x.Canonical integers) (hy : y.Canonical integers)
    (h : x.mul integers y = .ok r) : (x.image K).mul K (y.image K) = .ok (r.image K) := by
  rw [mul_eq_ok_iff_mul_lift (canonical_image x) (canonical_image y), lift_image, lift_image]
  exact Poly.realizes_image.mul ((mul_eq_ok_iff_mul_lift hx hy).1 h)

end Operand

/-! ## Expressions -/

/-- Arithmetic on integers and symbols. -/
inductive Expression where
  | int (n : Int)
  | symbol (s : Symbol)
  | add (e f : Expression)
  | sub (e f : Expression)
  | mul (e f : Expression)
  | neg (e : Expression)
  | pow (e : Expression) (n : Nat)

namespace Expression

variable {R : Type u}

/-- What an expression is as an argument of further arithmetic: its leaves are operands themselves,
everything else is computed and is a polynomial. -/
def operand (K : CoeffRing R) : Expression → Except ExponentOverflow (Operand R)
  | .int n => .ok (.int n)
  | .symbol s => .ok (.symbol s)
  | .add e f => do return .poly ((← e.operand K).add K (← f.operand K))
  | .sub e f => do return .poly ((← e.operand K).sub K (← f.operand K))
  | .mul e f => do return .poly (← (← e.operand K).mul K (← f.operand K))
  | .neg e => do return .poly ((← e.operand K).neg K)
  | .pow e n => do return .poly (← ((← e.operand K).lift K).pow K n)

/-- The polynomial that an expression stands for. -/
def value (K : CoeffRing R) (e : Expression) : Except ExponentOverflow (Poly R) :=
  (e.operand K).map fun x => x.lift K

/-! ### Runs that return a value -/

section Runs

variable {K : CoeffRing R} {e f : Expression} {n : Nat} {z : Operand R}

theorem operand_add_eq_ok_iff :
    (add e f).operand K = .ok z ↔
      ∃ x, e.operand K = .ok x ∧ ∃ y, f.operand K = .ok y ∧ .poly (x.add K y) = z := by
  simp [operand, Outcome.bind_eq_ok_iff, pure, Except.pure]

theorem operand_sub_eq_ok_iff :
    (sub e f).operand K = .ok z ↔
      ∃ x, e.operand K = .ok x ∧ ∃ y, f.operand K = .ok y ∧ .poly (x.sub K y) = z := by
  simp [operand, Outcome.bind_eq_ok_iff, pure, Except.pure]

theorem operand_mul_eq_ok_iff :
    (mul e f).operand K = .ok z ↔
      ∃ x, e.operand K = .ok x ∧ ∃ y, f.operand K = .ok y ∧
        ∃ r, x.mul K y = .ok r ∧ .poly r = z := by
  simp [operand, Outcome.bind_eq_ok_iff, pure, Except.pure]

theorem operand_neg_eq_ok_iff :
    (neg e).operand K = .ok z ↔ ∃ x, e.operand K = .ok x ∧ .poly (x.neg K) = z := by
  simp [operand, Outcome.bind_eq_ok_iff, pure, Except.pure]

theorem operand_pow_eq_ok_iff :
    (pow e n).operand K = .ok z ↔
      ∃ x, e.operand K = .ok x ∧ ∃ r, (x.lift K).pow K n = .ok r ∧ .poly r = z := by
  simp [operand, Outcome.bind_eq_ok_iff, pure, Except.pure]

end Runs

/-! ### Values over different rings -/

section Agrees

variable [CommRing R] {K : CoeffRing R} [K.Agrees]

theorem canonical_operand {e : Expression} {x : Operand R} (h : e.operand K = .ok x) :
    x.Canonical K := by
  induction e generalizing x with
  | int n =>
      cases h
      exact fun _ hp => nomatch hp
  | symbol s =>
      cases h
      exact fun _ hp => nomatch hp
  | add e f ihe ihf =>
      rcases operand_add_eq_ok_iff.1 h with ⟨a, ha, b, hb, rfl⟩
      exact Operand.canonical_poly_iff.2 (Operand.canonical_add (ihe ha) (ihf hb))
  | sub e f ihe ihf =>
      rcases operand_sub_eq_ok_iff.1 h with ⟨a, ha, b, hb, rfl⟩
      exact Operand.canonical_poly_iff.2 (Operand.canonical_sub (ihe ha) (ihf hb))
  | mul e f ihe ihf =>
      rcases operand_mul_eq_ok_iff.1 h with ⟨a, ha, b, hb, r, hr, rfl⟩
      exact Operand.canonical_poly_iff.2 (Operand.canonical_mul (ihe ha) (ihf hb) hr)
  | neg e ihe =>
      rcases operand_neg_eq_ok_iff.1 h with ⟨a, ha, rfl⟩
      exact Operand.canonical_poly_iff.2 (Operand.canonical_neg (ihe ha))
  | pow e n _ =>
      rcases operand_pow_eq_ok_iff.1 h with ⟨a, -, r, hr, rfl⟩
      exact Operand.canonical_poly_iff.2 (Poly.canonical_pow hr)

/-- What can be computed over the integers can be computed over the ring, step by step. -/
theorem operand_image {e : Expression} {x : Operand Int} (h : e.operand integers = .ok x) :
    e.operand K = .ok (x.image K) := by
  induction e generalizing x with
  | int n =>
      cases h
      rfl
  | symbol s =>
      cases h
      rfl
  | add e f ihe ihf =>
      rcases operand_add_eq_ok_iff.1 h with ⟨a, ha, b, hb, rfl⟩
      have himage := Operand.add_image (K := K) (canonical_operand ha) (canonical_operand hb)
      exact operand_add_eq_ok_iff.2 ⟨_, ihe ha, _, ihf hb, congrArg Operand.poly himage⟩
  | sub e f ihe ihf =>
      rcases operand_sub_eq_ok_iff.1 h with ⟨a, ha, b, hb, rfl⟩
      have himage := Operand.sub_image (K := K) (canonical_operand ha) (canonical_operand hb)
      exact operand_sub_eq_ok_iff.2 ⟨_, ihe ha, _, ihf hb, congrArg Operand.poly himage⟩
  | mul e f ihe ihf =>
      rcases operand_mul_eq_ok_iff.1 h with ⟨a, ha, b, hb, r, hr, rfl⟩
      -- The images have no monomials that the operands do not have, so nothing new overflows.
      have himage := Operand.mul_image (K := K) (canonical_operand ha) (canonical_operand hb) hr
      exact operand_mul_eq_ok_iff.2 ⟨_, ihe ha, _, ihf hb, _, himage, rfl⟩
  | neg e ihe =>
      rcases operand_neg_eq_ok_iff.1 h with ⟨a, ha, rfl⟩
      have himage := Operand.neg_image (K := K) (canonical_operand ha)
      exact operand_neg_eq_ok_iff.2 ⟨_, ihe ha, congrArg Operand.poly himage⟩
  | pow e n ihe =>
      rcases operand_pow_eq_ok_iff.1 h with ⟨a, ha, r, hr, rfl⟩
      -- A power is taken of the lifted operand, and lifting commutes with images.
      have himage := Poly.realizes_image.pow (L := K) hr
      rw [← Operand.lift_image] at himage
      exact operand_pow_eq_ok_iff.2 ⟨_, ihe ha, _, himage, rfl⟩

theorem value_image {e : Expression} {p : Poly Int} (h : e.value integers = .ok p) :
    e.value K = .ok (p.image K) := by
  rcases Outcome.map_eq_ok_iff.1 h with ⟨x, hx, rfl⟩
  exact Outcome.map_eq_ok_iff.2 ⟨_, operand_image hx, Operand.lift_image x⟩

end Agrees

theorem value_image_of_lawful {K : CoeffRing R} (hK : K.Lawful) {e : Expression} {p : Poly Int}
    (h : e.value integers = .ok p) : e.value K = .ok (p.image K) := by
  let _ := hK.toCommRing
  have _ := hK.agrees
  exact value_image h

/-- The value of an expression over the integers gives its value over every lawful ring, by mapping
the coefficients. The rationals and the residues are such rings, and over residues mapping the
coefficients is reducing them. -/
theorem value_over_rings {e : Expression} {p : Poly Int} (h : e.value integers = .ok p) :
    (∀ {R : Type u} {K : CoeffRing R}, K.Lawful →
        e.value K = .ok (.ofTerms K (p.toList.map fun t => (t.1, K.timesOne t.2)))) ∧
      rationals.toCoeffRing.Lawful ∧
      (∀ (q : Nat) [NonzeroModulus q], (finiteField q).toCoeffRing.Lawful) ∧
      ∀ m : Modulus, (integersMod m).toCoeffRing.Lawful ∧
        e.value (integersMod m).toCoeffRing =
          .ok (.ofTerms (integersMod m).toCoeffRing
            (p.toList.map fun t => (t.1, Residue.ofInt m t.2))) := by
  refine ⟨fun hK => value_image_of_lawful hK h, lawful_rationals, fun q _ => lawful_finiteField q, ?_⟩
  intro m
  have hm := lawful_integersMod m
  have hreduce : (integersMod m).toCoeffRing.timesOne = Residue.ofInt m := by
    funext n
    exact hm.timesOne_eq_ofInt n
  refine ⟨hm, (value_image_of_lawful hm h).trans ?_⟩
  rw [Poly.image, hreduce]

/-- Over the integers `(2 * x + 3) ^ 2 - -(2 * x ^ 2)` has three terms. Modulo six only the constant is
left. -/
theorem value_over_rings_modulo_six :
    let x : Expression := .symbol ⟨"x"⟩
    let e : Expression :=
      .sub (.pow (.add (.mul (.int 2) x) (.int 3)) 2) (.neg (.mul (.int 2) (.pow x 2)))
    let six : Modulus := ⟨6, by decide⟩
    ∃ p q, e.value integers = .ok p ∧ e.value (integersMod six).toCoeffRing = .ok q ∧
      p.toList =
        [(.one, 9), (.ofSymbol ⟨"x"⟩, 12), (Monomial.one.withExponent ⟨"x"⟩ 2, 6)] ∧
      q.toList = [(.one, Residue.ofInt six 3)] := by
  intro x e six
  have hrun : (e.value integers).toOption.map Poly.toList =
      some [(.one, 9), (.ofSymbol ⟨"x"⟩, 12), (Monomial.one.withExponent ⟨"x"⟩ 2, 6)] := by
    decide +kernel
  rcases Outcome.exists_eq_ok_of_toOption_map hrun with ⟨p, hp, hterms⟩
  have hsix := ((value_over_rings.{0} hp).2.2.2 six).2
  refine ⟨p, _, hp, hsix, hterms, ?_⟩
  rw [hterms]
  decide +kernel

end Expression

end SymbolicPoly
