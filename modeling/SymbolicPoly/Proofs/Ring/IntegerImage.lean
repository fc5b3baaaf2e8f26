import Mathlib.Algebra.Group.MinimalAxioms
import SymbolicPoly.Proofs.Ring.Modular
import SymbolicPoly.Ring.Words

/-!
# Integer image — the multiples of one in a ring

`CoeffRing.timesOne` adds up as many ones as an integer says. The general image of an integer doubles
instead, along the binary digits. In a group both are the same element
(`AdditiveLaws.sumOfOnes_eq_timesOne`), and in a ring they respect sums and products
(`RingLaws.sumOfOnes_add`, `RingLaws.sumOfOnes_mul`). Products need not commute.

The integers, the rationals and both kinds of residues have an image of their own, found in one step.
In each of them it is the general one.
-/

namespace SymbolicPoly

universe u

variable {R : Type u}

namespace CoeffRing

/-- As many ones as `n` says, added up, and negated for negative `n`. -/
def timesOne (K : CoeffRing R) (n : Int) : R :=
  if n < 0 then K.neg (K.sum (List.replicate n.natAbs K.one))
  else K.sum (List.replicate n.natAbs K.one)

/-! ## Laws -/

/-- Sums and negatives are those of a group. -/
structure AdditiveLaws (K : CoeffRing R) : Prop where
  add_assoc : ∀ a b c, K.add (K.add a b) c = K.add a (K.add b c)
  zero_add : ∀ a, K.add K.zero a = a
  neg_add_cancel : ∀ a, K.add (K.neg a) a = K.zero

/-- The laws of a ring with one, in which products need not commute. -/
structure RingLaws (K : CoeffRing R) : Prop extends AdditiveLaws K where
  mul_assoc : ∀ a b c, K.mul (K.mul a b) c = K.mul a (K.mul b c)
  one_mul : ∀ a, K.mul K.one a = a
  mul_one : ∀ a, K.mul a K.one = a
  mul_add : ∀ a b c, K.mul a (K.add b c) = K.add (K.mul a b) (K.mul a c)
  add_mul : ∀ a b c, K.mul (K.add a b) c = K.add (K.mul a c) (K.mul b c)

variable {K : CoeffRing R}

/-- The group that the laws describe. -/
abbrev AdditiveLaws.toAddGroup (hK : K.AdditiveLaws) : AddGroup R :=
  @AddGroup.ofLeftAxioms R ⟨K.add⟩ ⟨K.neg⟩ ⟨K.zero⟩ hK.add_assoc hK.zero_add hK.neg_add_cancel

/-- The ring that the laws describe. -/
abbrev RingLaws.toRing (hK : K.RingLaws) : Ring R :=
  @Ring.ofMinimalAxioms R ⟨K.add⟩ ⟨K.mul⟩ ⟨K.neg⟩ ⟨K.zero⟩ ⟨K.one⟩ hK.add_assoc hK.zero_add
    hK.neg_add_cancel hK.mul_assoc hK.one_mul hK.mul_one hK.mul_add hK.add_mul

/-! ## The general image -/

theorem AdditiveLaws.timesOne_eq_zsmul (hK : K.AdditiveLaws) (n : Int) :
    letI := hK.toAddGroup
    K.timesOne n = n • K.one := by
  let _ := hK.toAddGroup
  have hcopies : ∀ k : Nat, K.sum (List.replicate k K.one) = k • K.one := by
    intro k
    calc
      K.sum (List.replicate k K.one) = (List.replicate k K.one).sum := List.sum_eq_foldl.symm
      _ = k • K.one := List.sum_replicate k K.one
  unfold timesOne
  cases n with
  | ofNat n =>
      have hnonneg : ¬ (n : Int) < 0 := Int.not_lt.2 (Int.natCast_nonneg n)
      simp [hnonneg, hcopies]
  | negSucc n =>
      rw [if_pos (Int.negSucc_lt_zero n), hcopies, negSucc_zsmul]
      rfl

/-- Doubling gives the sum of as many ones as there are. -/
theorem AdditiveLaws.sumOfOnes_eq_timesOne (hK : K.AdditiveLaws) (n : Int) :
    sumOfOnes K.zero K.one K.add K.neg n = K.timesOne n := by
  let _ := hK.toAddGroup
  exact (sumOfOnes_eq_zsmul K.one n).trans (hK.timesOne_eq_zsmul n).symm

theorem RingLaws.sumOfOnes_eq_intCast (hK : K.RingLaws) (n : Int) :
    letI := hK.toRing
    sumOfOnes K.zero K.one K.add K.neg n = n := by
  let _ := hK.toRing
  exact (sumOfOnes_eq_zsmul K.one n).trans (zsmul_one n)

theorem RingLaws.sumOfOnes_add (hK : K.RingLaws) (a b : Int) :
    sumOfOnes K.zero K.one K.add K.neg (a + b) =
      K.add (sumOfOnes K.zero K.one K.add K.neg a) (sumOfOnes K.zero K.one K.add K.neg b) := by
  let _ := hK.toRing
  simp only [hK.sumOfOnes_eq_intCast]
  exact Int.cast_add a b

theorem RingLaws.sumOfOnes_mul (hK : K.RingLaws) (a b : Int) :
    sumOfOnes K.zero K.one K.add K.neg (a * b) =
      K.mul (sumOfOnes K.zero K.one K.add K.neg a) (sumOfOnes K.zero K.one K.add K.neg b) := by
  let _ := hK.toRing
  simp only [hK.sumOfOnes_eq_intCast]
  exact Int.cast_mul a b

/-! ## Lawful rings -/

theorem Lawful.additiveLaws (hK : K.Lawful) : K.AdditiveLaws where
  add_assoc := hK.add_assoc
  zero_add := hK.zero_add
  neg_add_cancel := hK.neg_add_cancel

theorem Lawful.timesOne_eq_ofInt (hK : K.Lawful) (n : Int) : K.timesOne n = K.ofInt n :=
  ((hK.ofInt_eq n).trans (hK.additiveLaws.sumOfOnes_eq_timesOne n)).symm

@[simp]
theorem timesOne_eq [CommRing R] [K.Agrees] (n : Int) : K.timesOne n = n :=
  (Agrees.lawful.timesOne_eq_ofInt n).trans (Agrees.ofInt_eq n)

end CoeffRing

/-! ## Rings without an image of their own -/

theorem ringLaws_words (w : Nat) : (words w).RingLaws where
  add_assoc := BitVec.add_assoc
  zero_add := BitVec.zero_add
  neg_add_cancel a := (BitVec.add_comm _ a).trans (BitVec.add_right_neg a)
  mul_assoc := BitVec.mul_assoc
  one_mul := BitVec.one_mul
  mul_one := BitVec.mul_one
  mul_add _ _ _ := BitVec.mul_add
  add_mul _ _ _ := BitVec.add_mul

/-- Every integer is mapped to as many ones as it says, by doubling or, where a ring has an image of
its own, in one step. In a ring the images of sums and products are sums and products. -/
theorem integer_images :
    (∀ {R : Type u} {K : CoeffRing R}, K.AdditiveLaws →
      ∀ n, sumOfOnes K.zero K.one K.add K.neg n = K.timesOne n) ∧
    (∀ {R : Type u} {K : CoeffRing R}, K.RingLaws → ∀ a b,
      let image := sumOfOnes K.zero K.one K.add K.neg
      image (a + b) = K.add (image a) (image b) ∧ image (a * b) = K.mul (image a) (image b)) ∧
    (∀ w n, (words w).ofInt n = (words w).timesOne n ∧
      RingElement.ofInt n = (CoeffRing.ofElement (BitVec w)).timesOne n) ∧
    (let K := integers
      ∀ n, K.ofInt n = sumOfOnes K.zero K.one K.add K.neg n) ∧
    (let K := rationals
      ∀ n, K.ofInt n = sumOfOnes K.zero K.one K.add K.neg n) ∧
    (∀ (p : Nat) [NonzeroModulus p], let K := finiteField p
      ∀ n, K.ofInt n = sumOfOnes K.zero K.one K.add K.neg n) ∧
    ∀ m : Modulus, let K := integersMod m
      ∀ n, K.ofInt n = sumOfOnes K.zero K.one K.add K.neg n := by
  refine ⟨?_, ?_, ?_, ?_, ?_, ?_, ?_⟩
  · intro R K hK
    exact hK.sumOfOnes_eq_timesOne
  · intro R K hK a b
    exact ⟨hK.sumOfOnes_add a b, hK.sumOfOnes_mul a b⟩
  · intro w n
    have hwords := (ringLaws_words w).sumOfOnes_eq_timesOne n
    exact ⟨hwords, hwords⟩
  · exact lawful_integers.ofInt_eq
  · exact lawful_rationals.ofInt_eq
  · intro p _
    exact (lawful_finiteField p).ofInt_eq
  · intro m
    exact (lawful_integersMod m).ofInt_eq

/-- The least signed word among words of eight bits, where its image is zero, and modulo the largest
word, where it is not. -/
theorem integer_images_least_word :
    let K := words 8
    let image := sumOfOnes K.zero K.one K.add K.neg
    let m : Modulus := ⟨18446744073709551615, by decide⟩
    let L := integersMod m
    K.RingLaws ∧ image (-9223372036854775808) = 0 ∧
      K.timesOne (-9223372036854775808) = 0 ∧
      image (-9223372036854775808 + 77) = K.add (image (-9223372036854775808)) (image 77) ∧
      image (-7 * 11) = K.mul (image (-7)) (image 11) ∧
      sumOfOnes L.zero L.one L.add L.neg (-9223372036854775808) =
        .ofWord m 9223372036854775807 := by
  intro K image m L
  have hK : K.RingLaws := ringLaws_words 8
  rcases integer_images with ⟨hloop, hring, -, -, -, -, hresidues⟩
  have hzero : image (-9223372036854775808) = 0 := by decide +kernel
  have hcopies := (hloop hK.toAdditiveLaws (-9223372036854775808)).symm.trans hzero
  have hleast : L.ofInt (-9223372036854775808) = .ofWord m 9223372036854775807 := by decide +kernel
  exact ⟨hK, hzero, hcopies, (hring hK (-9223372036854775808) 77).1, (hring hK (-7) 11).2,
    (hresidues m _).symm.trans hleast⟩

end SymbolicPoly
