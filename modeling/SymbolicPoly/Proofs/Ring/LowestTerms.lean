import Mathlib.Data.Option.NAry
import Mathlib.Data.Rat.Lemmas
import SymbolicPoly.Proofs.Ring.Instances

/-!
# Lowest terms — rationals compared with fractions that are never reduced

A calculation with fractions can be carried out on pairs of integers, by multiplying crosswise and
without looking for common factors (`RationalCalculation.exact`). The pairs say which number the result
is, but many pairs say the same. Rationals keep one pair for each number: the denominator is positive
and has no factor in common with the numerator (`Fraction.InLowestTerms`). Two such pairs are the same
number only if they are the same pair (`InLowestTerms.eq_iff`).

Whatever is calculated, the rational is the pair of integers in lowest terms, and it exists exactly if
no pair was divided by zero (`rationals_in_lowest_terms`). The sign of a denominator moves to the
numerator. The least signed word has no negative among the signed words, so its size is taken as an
unsigned word (`Rationals.ofWords`).
-/

namespace SymbolicPoly

universe u

/-! ## Inverses and quotients of rationals -/

namespace Rationals

theorem inv?_eq (x : Rat) : FieldElement.inv? x = if x = 0 then none else some x⁻¹ :=
  rfl

theorem div?_eq (x y : Rat) : FieldElement.div? x y = if y = 0 then none else some (x / y) := by
  change (FieldElement.inv? y).map (x * ·) = _
  rw [inv?_eq]
  split
  · rfl
  · exact congrArg some (div_eq_mul_inv x y).symm

end Rationals

/-- The laws of a field, for operations that a type carries. -/
structure FieldElement.Laws (R : Type u) [FieldElement R] : Prop where
  ring : (CoeffRing.ofElement R).Lawful
  one_ne_zero : (RingElement.one : R) ≠ RingElement.zero
  inv?_eq_none_iff : ∀ x : R, FieldElement.inv? x = none ↔ x = RingElement.zero
  mul_eq_one : ∀ x y : R, FieldElement.inv? x = some y → RingElement.mul x y = RingElement.one
  exists_div?_iff : ∀ x y : R, (∃ z, FieldElement.div? x y = some z) ↔ y ≠ RingElement.zero
  mul_eq : ∀ x y z : R, FieldElement.div? x y = some z → RingElement.mul z y = x

theorem fieldLaws_rational : FieldElement.Laws Rat where
  ring := lawful_rationals
  one_ne_zero := one_ne_zero
  inv?_eq_none_iff x := by
    by_cases hx : x = 0
    · exact iff_of_true (if_pos hx) hx
    · exact iff_of_false (by simp [Rationals.inv?_eq, hx]) hx
  mul_eq_one x y h := by
    rw [Rationals.inv?_eq] at h
    split at h
    · cases h
    · cases h
      exact mul_inv_cancel₀ ‹x ≠ 0›
  exists_div?_iff x y := by
    by_cases hy : y = 0
    · exact iff_of_false (by simp [Rationals.div?_eq, hy]) (not_not.2 hy)
    · exact iff_of_true (by simp [Rationals.div?_eq, hy]) hy
  mul_eq x y z h := by
    rw [Rationals.div?_eq] at h
    split at h
    · cases h
    · cases h
      exact div_mul_cancel₀ x ‹y ≠ 0›

/-! ## Fractions -/

/-- An integer over an integer of any sign, which is not zero. -/
structure Fraction where
  num : Int
  den : Int
  den_ne_zero : den ≠ 0
  deriving DecidableEq

namespace Fraction

theorem toInt_ne_zero {n : Int64} (h : n ≠ 0) : n.toInt ≠ 0 :=
  Int64.toInt_inj.not.2 h

def ofWords (num den : Int64) (h : den ≠ 0) : Fraction where
  num := num.toInt
  den := den.toInt
  den_ne_zero := toInt_ne_zero h

def ofInt (n : Int) : Fraction where
  num := n
  den := 1
  den_ne_zero := one_ne_zero

def add (f g : Fraction) : Fraction where
  num := f.num * g.den + g.num * f.den
  den := f.den * g.den
  den_ne_zero := mul_ne_zero f.den_ne_zero g.den_ne_zero

def sub (f g : Fraction) : Fraction where
  num := f.num * g.den - g.num * f.den
  den := f.den * g.den
  den_ne_zero := mul_ne_zero f.den_ne_zero g.den_ne_zero

def neg (f : Fraction) : Fraction where
  num := -f.num
  den := f.den
  den_ne_zero := f.den_ne_zero

def mul (f g : Fraction) : Fraction where
  num := f.num * g.num
  den := f.den * g.den
  den_ne_zero := mul_ne_zero f.den_ne_zero g.den_ne_zero

def pow (f : Fraction) (n : Nat) : Fraction where
  num := f.num ^ n
  den := f.den ^ n
  den_ne_zero := pow_ne_zero n f.den_ne_zero

/-- The denominator over the numerator. -/
def inv? (f : Fraction) : Option Fraction :=
  if h : f.num = 0 then none else some ⟨f.den, f.num, h⟩

def div? (f g : Fraction) : Option Fraction :=
  if h : g.num = 0 then none else some ⟨f.num * g.den, f.den * g.num, mul_ne_zero f.den_ne_zero h⟩

/-- `num / den` is the number of the fraction, and it cannot be reduced. -/
structure InLowestTerms (f : Fraction) (num den : Int) : Prop where
  den_pos : 0 < den
  gcd_eq_one : num.gcd den = 1
  num_mul_den : num * f.den = f.num * den

/-! ## The number of a fraction -/

def value (f : Fraction) : Rat :=
  Rat.divInt f.num f.den

/-- Multiplied crosswise, equal numbers give equal integers. -/
theorem value_eq_iff (f g : Fraction) : f.value = g.value ↔ f.num * g.den = g.num * f.den :=
  Rat.divInt_eq_divInt_iff f.den_ne_zero g.den_ne_zero

theorem inLowestTerms_value (f : Fraction) : f.InLowestTerms f.value.num f.value.den where
  den_pos := Int.natCast_pos.2 f.value.den_pos
  gcd_eq_one := f.value.reduced
  num_mul_den := by
    have hden : (f.value.den : Int) ≠ 0 := Int.natCast_ne_zero.2 f.value.den_nz
    exact (Rat.divInt_eq_divInt_iff hden f.den_ne_zero).1 f.value.num_divInt_den

theorem InLowestTerms.div_eq_value {f : Fraction} {n d : Int} (h : f.InLowestTerms n d) :
    (n / d : Rat) = f.value := by
  rw [Rat.intCast_div_eq_divInt]
  exact (Rat.divInt_eq_divInt_iff h.den_pos.ne' f.den_ne_zero).2 h.num_mul_den

/-- In lowest terms a number has one numerator and one denominator. -/
theorem InLowestTerms.eq_iff {f g : Fraction} {n d n' d' : Int} (hf : f.InLowestTerms n d)
    (hg : g.InLowestTerms n' d') : (n = n' ∧ d = d') ↔ f.num * g.den = g.num * f.den := by
  rw [← value_eq_iff, ← hf.div_eq_value, ← hg.div_eq_value]
  constructor
  · rintro ⟨rfl, rfl⟩
    rfl
  · exact Rat.div_int_inj hf.den_pos hg.den_pos hf.gcd_eq_one hg.gcd_eq_one

/-! ### Operations -/

theorem value_ofInt (n : Int) : (ofInt n).value = RingElement.ofInt n :=
  Rat.divInt_one n

theorem value_add (f g : Fraction) : (f.add g).value = RingElement.add f.value g.value :=
  (Rat.divInt_add_divInt f.num g.num f.den_ne_zero g.den_ne_zero).symm

theorem value_sub (f g : Fraction) : (f.sub g).value = RingElement.sub f.value g.value :=
  (Rat.divInt_sub_divInt f.num g.num f.den_ne_zero g.den_ne_zero).symm

theorem value_neg (f : Fraction) : f.neg.value = RingElement.neg f.value :=
  (Rat.neg_divInt f.num f.den).symm

theorem value_mul (f g : Fraction) : (f.mul g).value = RingElement.mul f.value g.value :=
  (Rat.divInt_mul_divInt f.num g.num).symm

theorem value_pow (f : Fraction) (n : Nat) : (f.pow n).value = RingElement.pow f.value n := by
  calc
    (f.pow n).value = f.value ^ n := by simp [value, pow, Rat.divInt_eq_div, div_pow]
    _ = RingElement.pow f.value n :=
          (CoeffRing.Agrees.pow_eq (K := rationals.toCoeffRing) f.value n).symm

theorem value_eq_zero_iff (f : Fraction) : f.value = 0 ↔ f.num = 0 :=
  Rat.divInt_eq_zero f.den_ne_zero

theorem map_value_inv? (f : Fraction) : f.inv?.map value = FieldElement.inv? f.value := by
  rw [Rationals.inv?_eq]
  by_cases h : f.num = 0
  · rw [inv?, dif_pos h, if_pos (f.value_eq_zero_iff.2 h), Option.map_none]
  · rw [inv?, dif_neg h, if_neg (f.value_eq_zero_iff.not.2 h), Option.map_some]
    exact congrArg some (Rat.inv_divInt f.num f.den).symm

theorem map_value_div? (f g : Fraction) :
    (f.div? g).map value = FieldElement.div? f.value g.value := by
  rw [Rationals.div?_eq]
  by_cases h : g.num = 0
  · rw [div?, dif_pos h, if_pos (g.value_eq_zero_iff.2 h), Option.map_none]
  · rw [div?, dif_neg h, if_neg (g.value_eq_zero_iff.not.2 h), Option.map_some]
    exact congrArg some (Rat.divInt_div_divInt f.num f.den g.num g.den).symm

end Fraction

theorem Rationals.ofFraction_eq_ok (num : Int64) {den : Int64} (h : den ≠ 0) :
    ofFraction num.toInt den.toInt = .ok (Fraction.ofWords num den h).value :=
  if_neg (Fraction.toInt_ne_zero h)

/-! ## Calculations -/

inductive RationalCalculation where
  | fraction (num den : Int64)
  | integer (n : Int)
  | add (x y : RationalCalculation)
  | sub (x y : RationalCalculation)
  | neg (x : RationalCalculation)
  | mul (x y : RationalCalculation)
  | pow (x : RationalCalculation) (n : UInt32)
  | inv (x : RationalCalculation)
  | div (x y : RationalCalculation)

namespace RationalCalculation

/-- The result as a rational. There is none after a division by zero. -/
def run : RationalCalculation → Option Rat
  | fraction num den => (Rationals.ofFraction num.toInt den.toInt).toOption
  | integer n => some (RingElement.ofInt n)
  | add x y => Option.map₂ RingElement.add x.run y.run
  | sub x y => Option.map₂ RingElement.sub x.run y.run
  | neg x => x.run.map RingElement.neg
  | mul x y => Option.map₂ RingElement.mul x.run y.run
  | pow x n => x.run.map fun a => RingElement.pow a n.toNat
  | inv x => x.run.bind FieldElement.inv?
  | div x y => x.run.bind fun a => y.run.bind (FieldElement.div? a)

/-- The result as a pair of integers that is never reduced. -/
def exact : RationalCalculation → Option Fraction
  | fraction num den => if h : den = 0 then none else some (.ofWords num den h)
  | integer n => some (.ofInt n)
  | add x y => Option.map₂ Fraction.add x.exact y.exact
  | sub x y => Option.map₂ Fraction.sub x.exact y.exact
  | neg x => x.exact.map Fraction.neg
  | mul x y => Option.map₂ Fraction.mul x.exact y.exact
  | pow x n => x.exact.map fun f => f.pow n.toNat
  | inv x => x.exact.bind Fraction.inv?
  | div x y => x.exact.bind fun f => y.exact.bind f.div?

open Fraction in
/-- The pair has the value of the rational, after each operation. -/
theorem map_value_exact (c : RationalCalculation) : c.exact.map value = c.run := by
  induction c with
  | fraction num den =>
      by_cases h : den = 0
      · simp [exact, run, h, Rationals.ofFraction, Except.toOption]
      · rw [exact, run, dif_neg h, Rationals.ofFraction_eq_ok num h]
        rfl
  | integer n =>
      exact congrArg some (value_ofInt n)
  | add x y ihx ihy =>
      rw [exact, Option.map_map₂_distrib value_add, ihx, ihy, run]
  | sub x y ihx ihy =>
      rw [exact, Option.map_map₂_distrib value_sub, ihx, ihy, run]
  | neg x ih =>
      rw [exact, run, ← ih]
      simp [Function.comp_def, value_neg]
  | mul x y ihx ihy =>
      rw [exact, Option.map_map₂_distrib value_mul, ihx, ihy, run]
  | pow x n ih =>
      rw [exact, run, ← ih]
      simp [Function.comp_def, value_pow]
  | inv x ih =>
      rw [exact, run, ← ih]
      simp [Option.map_bind, Option.bind_map, map_value_inv?]
  | div x y ihx ihy =>
      rw [exact, run, ← ihx, ← ihy]
      simp [Option.map_bind, Option.bind_map, map_value_div?]

theorem rel_inLowestTerms (c : RationalCalculation) :
    Option.Rel (fun x f => f.InLowestTerms x.num x.den) c.run c.exact := by
  rw [← c.map_value_exact]
  cases c.exact with
  | none =>
      exact .none
  | some f =>
      exact .some f.inLowestTerms_value

theorem inLowestTerms (c : RationalCalculation) {x : Rat} {f : Fraction}
    (hx : c.run = some x) (hf : c.exact = some f) : f.InLowestTerms x.num x.den := by
  have hrel := c.rel_inLowestTerms
  rw [hx, hf] at hrel
  cases hrel with
  | some h =>
      exact h

end RationalCalculation

/-! ## Fractions of words -/

namespace Rationals

/-- The size of a signed word. That of the least word is one more than the largest signed word. -/
def magnitude (n : Int64) : UInt64 :=
  n.abs.toUInt64

theorem toNat_magnitude (n : Int64) : (magnitude n).toNat = n.toInt.natAbs := by
  change n.toBitVec.abs.toNat = n.toBitVec.toInt.natAbs
  rw [BitVec.toNat_abs, BitVec.toInt_eq_msb_cond]
  have hlt := n.toBitVec.isLt
  split <;> omega

/-- The fraction of two words. The sign of the denominator moves to the numerator, which is an integer
of any size by then. -/
def ofWords (num den : Int64) : Except ZeroDenominator Rat :=
  if den = 0 then .error ⟨⟩
  else .ok (mkRat (if den < 0 then -num.toInt else num.toInt) (magnitude den).toNat)

theorem ofWords_eq (num den : Int64) : ofWords num den = ofFraction num.toInt den.toInt := by
  have hzero : den = 0 ↔ den.toInt = 0 := Int64.toInt_inj.symm
  by_cases h : den = 0
  · rw [ofWords, ofFraction, if_pos h, if_pos (hzero.1 h)]
  · rw [ofWords, ofFraction, if_neg h, if_neg (hzero.not.1 h), toNat_magnitude, ← Rat.divInt_ofNat]
    refine congrArg Except.ok ?_
    -- Where the denominator is negative, both signs are changed, and the fraction is the same.
    by_cases hneg : den.toInt < 0
    · have hsize : (den.toInt.natAbs : Int) = -den.toInt := by omega
      rw [if_pos (Int64.lt_iff_toInt_lt.2 hneg), hsize, Rat.neg_divInt_neg]
    · have hsize : (den.toInt.natAbs : Int) = den.toInt := by omega
      rw [if_neg (mt Int64.lt_iff_toInt_lt.1 hneg), hsize]

/-- The least word over itself. -/
example : ofWords Int64.minValue Int64.minValue = .ok 1 := by
  decide +kernel

end Rationals

/-- Every rational that is made of fractions and integers is the exact result in lowest terms, and it
equals another one only if their numerators and denominators do. The operations are those of a field. -/
theorem rationals_in_lowest_terms :
    (∀ (num den : Int64) (h : den ≠ 0),
      ∃ x, Rationals.ofFraction num.toInt den.toInt = .ok x ∧ Rationals.ofWords num den = .ok x ∧
        (Fraction.ofWords num den h).InLowestTerms x.num x.den) ∧
    (∀ a b c d : Int64, b ≠ 0 → d ≠ 0 →
      (Rationals.ofFraction a.toInt b.toInt = Rationals.ofFraction c.toInt d.toInt ↔
        a.toInt * d.toInt = c.toInt * b.toInt)) ∧
    (∀ c : RationalCalculation,
      Option.Rel (fun x f => f.InLowestTerms x.num x.den) c.run c.exact) ∧
    (∀ (c d : RationalCalculation) (x y : Rat) (f g : Fraction),
      c.run = some x → d.run = some y → c.exact = some f → d.exact = some g →
        (x.num = y.num ∧ x.den = y.den ↔ f.num * g.den = g.num * f.den)) ∧
    FieldElement.Laws Rat := by
  refine ⟨?_, ?_, RationalCalculation.rel_inLowestTerms, ?_, fieldLaws_rational⟩
  · intro num den h
    have hvalue := Rationals.ofFraction_eq_ok num h
    exact ⟨_, hvalue, (Rationals.ofWords_eq num den).trans hvalue, Fraction.inLowestTerms_value _⟩
  · intro a b c d hb hd
    rw [Rationals.ofFraction_eq_ok a hb, Rationals.ofFraction_eq_ok c hd, Except.ok.injEq]
    exact Fraction.value_eq_iff _ _
  · intro c d x y f g hx hy hf hg
    have hiff := (c.inLowestTerms hx hf).eq_iff (d.inLowestTerms hy hg)
    rwa [Int.natCast_inj] at hiff

/-- Six over the least word, the least word over itself, the inverse of a negative sum beside a quotient
that is the same number, and an inverse and a quotient multiplied back. -/
theorem rationals_in_lowest_terms_least_word :
    let least := Int64.minValue
    let c : RationalCalculation := .inv (.add (.fraction 1 (-6)) (.fraction (-1) 3))
    let d : RationalCalculation := .div (.fraction 4 6) (.fraction 1 (-3))
    (∃ x, Rationals.ofFraction (Int64.toInt 6) least.toInt = .ok x ∧
      Rationals.ofWords 6 least = .ok x ∧ x = mkRat (-3) 4611686018427387904 ∧
        (Fraction.ofWords 6 least (by decide)).InLowestTerms x.num x.den) ∧
    Rationals.ofFraction least.toInt least.toInt =
      Rationals.ofFraction (Int64.toInt (-7)) (Int64.toInt (-7)) ∧
    c.exact = some ⟨-18, 9, by decide⟩ ∧ d.exact = some ⟨-12, 6, by decide⟩ ∧
    (∃ x y, c.run = some x ∧ d.run = some y ∧ x.num = y.num ∧ x.den = y.den) ∧
    RingElement.mul (-2 / 3 : Rat) (-3 / 2) = RingElement.one ∧
    RingElement.mul (-4 / 15 : Rat) (-5 / 2) = 2 / 3 := by
  intro least c d
  rcases rationals_in_lowest_terms with ⟨hwords, heq, -, hequal, hfield⟩
  rcases hwords 6 least (by decide) with ⟨x, hx, hx', hlowest⟩
  have hvalue : x = mkRat (-3) 4611686018427387904 :=
    Except.ok.inj (hx.symm.trans (congrArg Except.ok (by decide +kernel)))
  have hc : c.exact = some ⟨-18, 9, by decide⟩ := by decide +kernel
  have hd : d.exact = some ⟨-12, 6, by decide⟩ := by decide +kernel
  have hcrun : c.run = some (-2) := by decide +kernel
  have hdrun : d.run = some (-2) := by decide +kernel
  refine ⟨⟨x, hx, hx', hvalue, hlowest⟩, ?_, hc, hd, ⟨_, _, hcrun, hdrun, ?_⟩, ?_, ?_⟩
  · exact (heq least least (-7) (-7) (by decide) (by decide)).2 (by decide +kernel)
  · exact (hequal c d _ _ _ _ hcrun hdrun hc hd).2 (by decide)
  · exact hfield.mul_eq_one _ _ (by decide +kernel)
  · exact hfield.mul_eq _ _ _ (by decide +kernel)

end SymbolicPoly
