import SymbolicPoly.Proofs.Outcome
import SymbolicPoly.Proofs.Ring.Modular

/-!
# Checked words — residues computed in words of a fixed width

Residues are defined with numbers of any size. A machine has words: 64 bits to store a residue, 128
bits to form a sum or a product, and 128 bits with a sign to reduce a negative integer. Here each
step is one on bit vectors, and it fails if its exact result does not fit the width or if it divides
by zero. Widening keeps the number, and narrowing drops the high bits without a check.

The operations made of such steps take words about which nothing is known. On the words of residues
they do not fail, and the word that comes out is the one of the residue that comes out:
`element_eq`, `ofSigned_eq`, `addMod_eq`, `mulMod_eq`, `negMod_eq`. Put together they are the field
`checkedResidues`.
-/

namespace SymbolicPoly

/-- Why a step on words has no result. -/
inductive WordFault where
  | overflow
  | divisionByZero
  deriving DecidableEq, Repr

namespace CheckedWord

/-! ## Steps -/

/-- The number of an unsigned word, in 128 bits. -/
def widen (w : UInt64) : BitVec 128 :=
  w.toBitVec.setWidth 128

/-- The number of a signed word, in 128 bits. -/
def widenSigned (n : Int64) : BitVec 128 :=
  n.toBitVec.signExtend 128

/-- The low 64 bits. -/
def narrow (v : BitVec 128) : UInt64 :=
  .ofBitVec (v.setWidth 64)

section Steps

variable {width : Nat} (a b : BitVec width)

def add : Except WordFault (BitVec width) :=
  if a.uaddOverflow b then .error .overflow else .ok (a + b)

def sub : Except WordFault (BitVec width) :=
  if a.usubOverflow b then .error .overflow else .ok (a - b)

def mul : Except WordFault (BitVec width) :=
  if a.umulOverflow b then .error .overflow else .ok (a * b)

def mod : Except WordFault (BitVec width) :=
  if b = 0 then .error .divisionByZero else .ok (a % b)

/-- The remainder of a signed division, made positive by adding the size of the divisor. The one
quotient that does not fit is that of the least word by minus one. -/
def signedMod : Except WordFault (BitVec width) :=
  if b = 0 then .error .divisionByZero
  else if a = .intMin width ∧ b = -1 then .error .overflow
  else .ok (if (a.srem b).slt 0 then a.srem b + b.abs else a.srem b)

end Steps

/-! ## Operations modulo a word -/

/-- The word, reduced. -/
def element (m w : UInt64) : Except WordFault UInt64 :=
  (mod w.toBitVec m.toBitVec).map .ofBitVec

def reduceWide (m : UInt64) (v : BitVec 128) : Except WordFault UInt64 :=
  (mod v (widen m)).map narrow

def ofSigned (m : UInt64) (n : Int64) : Except WordFault UInt64 :=
  (signedMod (widenSigned n) (widen m)).map narrow

def addMod (m a b : UInt64) : Except WordFault UInt64 := do
  reduceWide m (← add (widen a) (widen b))

def mulMod (m a b : UInt64) : Except WordFault UInt64 := do
  reduceWide m (← mul (widen a) (widen b))

def negMod (m a : UInt64) : Except WordFault UInt64 :=
  if a = 0 then .ok 0 else (sub m.toBitVec a.toBitVec).map .ofBitVec

end CheckedWord

open CheckedWord in
/-- The integers modulo `m` on checked words. An element is a word, or the fault of an earlier step. The
steps are those of both kinds of residues, whether `m` comes with the ring or with the type. Only inverses
are still found with numbers of any size. -/
def checkedResidues (m : UInt64) : CoeffField (Except WordFault UInt64) where
  zero := .ok 0
  one := element m 1
  isZero x := decide (x = .ok 0)
  isOne x := decide (x = element m 1)
  add x y := do addMod m (← x) (← y)
  neg x := do negMod m (← x)
  mul x y := do mulMod m (← x) (← y)
  ofInt n := ofSigned m (.ofInt n)
  inv?
    | .ok w => (modularInverse? w.toNat m.toNat).map fun b => .ok (.ofNat b)
    | .error fault => some (.error fault)

namespace CheckedWord

/-! ## When a step does not fail -/

@[simp]
theorem toNat_widen (w : UInt64) : (widen w).toNat = w.toNat := by
  have hlt := w.toNat_lt
  simp [widen]
  omega

theorem toInt_widen (w : UInt64) : (widen w).toInt = w.toNat := by
  have hlt := w.toNat_lt
  have hsmall : 2 * (widen w).toNat < 2 ^ 128 := by
    rw [toNat_widen]
    omega
  rw [BitVec.toInt_eq_toNat_of_lt hsmall, toNat_widen]

theorem toInt_widen_pos (m : Modulus) : 0 < (widen m.word).toInt := by
  rw [toInt_widen]
  exact Int.natCast_pos.2 m.pos

theorem toInt_widenSigned (n : Int64) : (widenSigned n).toInt = n.toInt := by
  simp [widenSigned, BitVec.toInt_signExtend_of_le]

theorem toNat_narrow (v : BitVec 128) : (narrow v).toNat = v.toNat % 2 ^ 64 := by
  simp [narrow]

section Steps

variable {width : Nat} {a b : BitVec width}

theorem add_spec (h : a.toNat + b.toNat < 2 ^ width) :
    ∃ c, add a b = .ok c ∧ c.toNat = a.toNat + b.toNat := by
  have hfits : ¬ a.uaddOverflow b := by simp [BitVec.uaddOverflow, h]
  exact ⟨a + b, if_neg hfits, BitVec.toNat_add_of_not_uaddOverflow hfits⟩

theorem sub_spec (h : b.toNat ≤ a.toNat) :
    ∃ c, sub a b = .ok c ∧ c.toNat = a.toNat - b.toNat := by
  have hfits : ¬ a.usubOverflow b := by simp [BitVec.usubOverflow, h]
  exact ⟨a - b, if_neg hfits, BitVec.toNat_sub_of_not_usubOverflow hfits⟩

theorem mul_spec (h : a.toNat * b.toNat < 2 ^ width) :
    ∃ c, mul a b = .ok c ∧ c.toNat = a.toNat * b.toNat := by
  have hfits : ¬ a.umulOverflow b := by simp [BitVec.umulOverflow, h]
  exact ⟨a * b, if_neg hfits, BitVec.toNat_mul_of_not_umulOverflow hfits⟩

theorem mod_spec (hb : 0 < b.toNat) : ∃ c, mod a b = .ok c ∧ c.toNat = a.toNat % b.toNat := by
  have hne : b ≠ 0 := by
    rintro rfl
    simp at hb
  exact ⟨a % b, if_neg hne, BitVec.toNat_umod⟩

theorem ne_zero_of_toInt_pos (hb : 0 < b.toInt) : b ≠ 0 := by
  rintro rfl
  simp at hb

/-- A division by a positive word has a quotient that fits. -/
theorem not_overflow_of_toInt_pos (hb : 0 < b.toInt) : ¬ (a = .intMin width ∧ b = -1) := by
  rintro ⟨-, rfl⟩
  simp [BitVec.neg_one_eq_allOnes, BitVec.toInt_allOnes] at hb
  split at hb <;> omega

/-- By a positive word the remainder is never negative. -/
theorem signedMod_spec (hb : 0 < b.toInt) :
    ∃ c, signedMod a b = .ok c ∧ c.toInt = a.toInt % b.toInt := by
  have habs : b.abs = b := by
    simp [BitVec.abs_eq, BitVec.msb_eq_toInt, hb.le]
  refine ⟨_, (if_neg (ne_zero_of_toInt_pos hb)).trans (if_neg (not_overflow_of_toInt_pos hb)), ?_⟩
  -- The division rounds towards zero: what it leaves is the remainder, or that less the divisor.
  have hrem : (a.srem b).toInt = a.toInt.tmod b.toInt := BitVec.toInt_srem a b
  have hnonneg := Int.emod_nonneg a.toInt hb.ne'
  have hlt := Int.emod_lt_of_pos a.toInt hb
  have hround : a.toInt.tmod b.toInt = a.toInt % b.toInt ∨
      a.toInt.tmod b.toInt = a.toInt % b.toInt - b.toInt := by
    rw [Int.tmod_eq_emod]
    split <;> omega
  by_cases hsign : (a.srem b).toInt < 0
  · have hsum : (a.srem b).toInt + b.toInt = a.toInt % b.toInt := by omega
    have hsmall := BitVec.two_mul_toInt_lt (x := b)
    rw [if_pos (BitVec.slt_iff_toInt_lt.2 (by simpa using hsign)), habs, BitVec.toInt_add, hsum]
    exact Int.bmod_eq_of_le_mul_two (by push_cast; omega) (by push_cast; omega)
  · have hexact : (a.srem b).toInt = a.toInt % b.toInt := by omega
    rw [if_neg (mt BitVec.slt_iff_toInt_lt.1 (by simpa using hsign)), hexact]

end Steps

/-! ## Operations on the words of residues -/

section Residues

variable {m : Modulus}

theorem element_eq (w : UInt64) : element m.word w = .ok (Residue.ofWord m w).value := by
  rcases mod_spec (a := w.toBitVec) (b := m.word.toBitVec) m.pos with ⟨c, hmod, hc⟩
  refine Outcome.map_eq_ok_iff.2 ⟨c, hmod, UInt64.toNat_inj.1 ?_⟩
  simpa [Residue.ofWord, Residue.toNat_reduce] using hc

theorem reduceWide_eq (v : BitVec 128) :
    reduceWide m.word v = .ok (Residue.reduce m v.toNat).value := by
  have hpos : 0 < (widen m.word).toNat := by simpa using m.pos
  rcases mod_spec (a := v) hpos with ⟨c, hmod, hc⟩
  refine Outcome.map_eq_ok_iff.2 ⟨c, hmod, UInt64.toNat_inj.1 ?_⟩
  -- A remainder is below the modulus, so narrowing loses nothing.
  have hlt : v.toNat % m.word.toNat < 2 ^ 64 :=
    (Nat.mod_lt v.toNat m.pos).trans m.word.toNat_lt
  rw [toNat_narrow, hc, toNat_widen, Residue.toNat_reduce, Nat.mod_eq_of_lt hlt]

theorem addMod_eq (a b : Residue m) : addMod m.word a.value b.value = .ok (a.add b).value := by
  have ha := a.value.toNat_lt
  have hb := b.value.toNat_lt
  have hfits : (widen a.value).toNat + (widen b.value).toNat < 2 ^ 128 := by
    simp only [toNat_widen]
    omega
  rcases add_spec hfits with ⟨c, hadd, hc⟩
  refine Outcome.bind_eq_ok_iff.2 ⟨c, hadd, (reduceWide_eq c).trans ?_⟩
  rw [hc, toNat_widen, toNat_widen]
  rfl

theorem mulMod_eq (a b : Residue m) : mulMod m.word a.value b.value = .ok (a.mul b).value := by
  have hfits : (widen a.value).toNat * (widen b.value).toNat < 2 ^ 128 := by
    have hlt := Nat.mul_lt_mul'' a.value.toNat_lt b.value.toNat_lt
    simpa using hlt
  rcases mul_spec hfits with ⟨c, hmul, hc⟩
  refine Outcome.bind_eq_ok_iff.2 ⟨c, hmul, (reduceWide_eq c).trans ?_⟩
  rw [hc, toNat_widen, toNat_widen]
  rfl

/-- The largest modulus and its largest residue, minus one. -/
example : mulMod (-1) (-2) (-2) = .ok 1 := by
  decide

theorem negMod_eq (a : Residue m) : negMod m.word a.value = .ok a.neg.value := by
  by_cases hzero : a.value = 0
  · simp [negMod, Residue.neg, hzero]
  · rcases sub_spec (a := m.word.toBitVec) (b := a.value.toBitVec) a.isLt.le with ⟨c, hsub, hc⟩
    refine (if_neg hzero).trans (Outcome.map_eq_ok_iff.2 ⟨c, hsub, UInt64.toNat_inj.1 ?_⟩)
    have hpos : a.value.toNat ≠ 0 := fun h => hzero (UInt64.toNat_inj.1 h)
    simpa [Residue.toNat_neg, hpos] using hc

/-- On a word that is not reduced the subtraction fails. -/
example : negMod 5 7 = .error .overflow := by
  decide

/-- A signed number of 128 bits, reduced. -/
theorem map_narrow_signedMod_eq (v : BitVec 128) :
    (signedMod v (widen m.word)).map narrow = .ok (Residue.ofInt m v.toInt).value := by
  rcases signedMod_spec (a := v) (toInt_widen_pos m) with ⟨c, hmod, hc⟩
  refine Outcome.map_eq_ok_iff.2 ⟨c, hmod, UInt64.toNat_inj.1 ?_⟩
  rw [toInt_widen] at hc
  have hnonneg := Int.emod_nonneg v.toInt (Int.natCast_pos.2 m.pos).ne'
  have hlt := Int.emod_lt_of_pos v.toInt (Int.natCast_pos.2 m.pos)
  have hword := m.word.toNat_lt
  -- The remainder has no sign bit, so it is the same number when it is read without a sign.
  have hunsigned : c.toNat = (v.toInt % m.word.toNat).toNat := by
    have hsigned := BitVec.toInt_eq_toNat_cond c
    have hc128 := c.isLt
    split at hsigned <;> omega
  rw [toNat_narrow, hunsigned, Residue.toNat_ofInt]
  exact Nat.mod_eq_of_lt (by omega)

theorem ofSigned_eq (n : Int64) : ofSigned m.word n = .ok (Residue.ofInt m n.toInt).value := by
  rw [ofSigned, map_narrow_signedMod_eq, toInt_widenSigned]

end Residues

end CheckedWord

end SymbolicPoly
