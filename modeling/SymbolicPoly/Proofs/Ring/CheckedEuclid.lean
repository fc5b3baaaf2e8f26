import SymbolicPoly.Proofs.Ring.CheckedWords
import SymbolicPoly.Proofs.Ring.Cofactors

/-!
# Checked Euclid — the extended algorithm in words of a fixed width

The extended algorithm is defined with numbers of any size, and its remainders are found by a division
that always succeeds. A machine keeps the two remainders and their cofactors in signed words of 128
bits, and each of its divisions, products and differences can fail. `CheckedEuclid` is the loop on such
words. It ends for all words, since what a division leaves is smaller than the divisor.

A signed step succeeds exactly if some word is its exact result (`signedSub_eq_ok_iff` and those beside
it). Where the loop begins with a 64-bit word and a modulus, the bounds on remainders and cofactors
give such a word at every step. So the loop comes past the states of the algorithm, one by one, and no
step fails (`euclid_fits_words`).
-/

namespace SymbolicPoly

namespace CheckedWord

/-! ## Signed steps -/

section Steps

variable {width : Nat}

section Definitions

variable (a b : BitVec width)

def signedSub : Except WordFault (BitVec width) :=
  if a.ssubOverflow b then .error .overflow else .ok (a - b)

def signedMul : Except WordFault (BitVec width) :=
  if a.smulOverflow b then .error .overflow else .ok (a * b)

/-- Division and remainder fail alike: by zero, and where the quotient is that of the least word by
minus one. -/
def signedDivision (result : BitVec width → BitVec width → BitVec width) :
    Except WordFault (BitVec width) :=
  if b = 0 then .error .divisionByZero
  else if a = .intMin width ∧ b = -1 then .error .overflow
  else .ok (result a b)

/-- The quotient, rounded towards zero. -/
def signedDiv : Except WordFault (BitVec width) :=
  signedDivision a b .sdiv

/-- What the quotient leaves, with the sign of the dividend. -/
def signedRem : Except WordFault (BitVec width) :=
  signedDivision a b .srem

/-- `a` less a multiple of `b`. -/
def signedSubMul (factor : BitVec width) : Except WordFault (BitVec width) := do
  signedSub a (← signedMul factor b)

end Definitions

variable {a b c factor : BitVec width}

/-- A step that is exact unless it fails, and that fails only if no word is the exact result. -/
theorem checked_eq_ok_iff {fails : Prop} [Decidable fails] {result : BitVec width} {n : Int}
    (hexact : ¬ fails → result.toInt = n) (hfails : fails → c.toInt ≠ n) :
    (if fails then .error .overflow else .ok result : Except WordFault (BitVec width)) = .ok c ↔
      c.toInt = n := by
  by_cases h : fails
  · simp [h, hfails h]
  · simp only [if_neg h, Except.ok.injEq, ← hexact h, BitVec.toInt_inj, eq_comm]

theorem signedSub_eq_ok_iff : signedSub a b = .ok c ↔ c.toInt = a.toInt - b.toInt := by
  refine checked_eq_ok_iff BitVec.toInt_sub_of_not_ssubOverflow ?_
  have hle := c.le_toInt
  have hlt := c.toInt_lt
  simp only [BitVec.ssubOverflow, Bool.or_eq_true, decide_eq_true_eq]
  omega

theorem signedMul_eq_ok_iff : signedMul a b = .ok c ↔ c.toInt = a.toInt * b.toInt := by
  refine checked_eq_ok_iff BitVec.toInt_mul_of_not_smulOverflow ?_
  have hle := c.le_toInt
  have hlt := c.toInt_lt
  simp only [BitVec.smulOverflow, Bool.or_eq_true, decide_eq_true_eq]
  omega

/-- The least word by minus one is one more than the largest word. -/
theorem toInt_tdiv_of_overflow (hb : b ≠ 0) (h : a = .intMin width ∧ b = -1) :
    a.toInt.tdiv b.toInt = 2 ^ (width - 1) := by
  have hwidth : 0 < width := by
    refine Nat.pos_of_ne_zero ?_
    rintro rfl
    exact hb (Subsingleton.elim b 0)
  have hb' : b.toInt = -1 := by
    rw [h.2]
    simp [BitVec.neg_one_eq_allOnes, BitVec.toInt_allOnes, hwidth]
  rw [h.1, BitVec.toInt_intMin_of_pos hwidth, hb', Int.neg_tdiv_neg, Int.tdiv_one]

theorem signedDiv_eq_ok_iff :
    signedDiv a b = .ok c ↔ b ≠ 0 ∧ c.toInt = a.toInt.tdiv b.toInt := by
  by_cases hb : b = 0
  · simp [signedDiv, signedDivision, hb]
  · rw [signedDiv, signedDivision, if_neg hb, and_iff_right hb]
    refine checked_eq_ok_iff ?_ ?_
    · intro h
      exact BitVec.toInt_sdiv_of_ne_or_ne a b (Decidable.not_and_iff_or_not.1 h)
    · intro h
      -- No word is larger than the largest one.
      rw [toInt_tdiv_of_overflow hb h]
      exact c.toInt_lt.ne

theorem signedDivision_eq_ok (hb : 0 < b.toInt)
    (result : BitVec width → BitVec width → BitVec width) :
    signedDivision a b result = .ok (result a b) :=
  (if_neg (ne_zero_of_toInt_pos hb)).trans (if_neg (not_overflow_of_toInt_pos hb))

theorem signedSubMul_eq_ok_iff :
    signedSubMul a b factor = .ok c ↔
      (∃ product : BitVec width, product.toInt = factor.toInt * b.toInt) ∧
        c.toInt = a.toInt - factor.toInt * b.toInt := by
  simp only [signedSubMul, Outcome.bind_eq_ok_iff, signedMul_eq_ok_iff, signedSub_eq_ok_iff]
  constructor
  · rintro ⟨product, hproduct, hc⟩
    exact ⟨⟨product, hproduct⟩, hproduct ▸ hc⟩
  · rintro ⟨⟨product, hproduct⟩, hc⟩
    exact ⟨product, hproduct, hproduct ▸ hc⟩

end Steps

end CheckedWord

open CheckedWord

/-! ## The loop -/

/-- Two consecutive remainders and their cofactors, in signed words. -/
structure CheckedEuclid where
  cofactor : BitVec 128
  nextCofactor : BitVec 128
  remainder : BitVec 128
  nextRemainder : BitVec 128
  deriving DecidableEq, Repr

namespace CheckedEuclid

def start (a m : UInt64) : Except WordFault CheckedEuclid := do
  let reduced ← signedRem (widen a) (widen m)
  return { cofactor := 0, nextCofactor := 1, remainder := widen m, nextRemainder := reduced }

def next (w : CheckedEuclid) : Except WordFault CheckedEuclid := do
  let quotient ← signedDiv w.remainder w.nextRemainder
  let cofactor ← signedSubMul w.cofactor w.nextCofactor quotient
  let remainder ← signedSubMul w.remainder w.nextRemainder quotient
  return { cofactor := w.nextCofactor, nextCofactor := cofactor,
           remainder := w.nextRemainder, nextRemainder := remainder }

theorem next_eq_ok_iff {w w' : CheckedEuclid} :
    w.next = .ok w' ↔ ∃ quotient, signedDiv w.remainder w.nextRemainder = .ok quotient ∧
      signedSubMul w.cofactor w.nextCofactor quotient = .ok w'.nextCofactor ∧
      signedSubMul w.remainder w.nextRemainder quotient = .ok w'.nextRemainder ∧
      w.nextCofactor = w'.cofactor ∧ w.nextRemainder = w'.remainder := by
  rcases w' with ⟨cofactor, nextCofactor, remainder, nextRemainder⟩
  simp only [next, Outcome.bind_eq_ok_iff, pure, Except.pure, Except.ok.injEq, mk.injEq]
  constructor
  · rintro ⟨quotient, hquotient, _, hcofactor, _, hremainder, rfl, rfl, rfl, rfl⟩
    exact ⟨quotient, hquotient, hcofactor, hremainder, rfl, rfl⟩
  · rintro ⟨quotient, hquotient, hcofactor, hremainder, rfl, rfl⟩
    exact ⟨quotient, hquotient, _, hcofactor, _, hremainder, rfl, rfl, rfl, rfl⟩

/-- What a division leaves is smaller than the divisor, whatever their signs are. -/
theorem natAbs_nextRemainder_lt {w w' : CheckedEuclid} (h : w.next = .ok w') :
    w'.nextRemainder.toInt.natAbs < w.nextRemainder.toInt.natAbs := by
  rcases next_eq_ok_iff.1 h with ⟨quotient, hdiv, -, hsub, -, -⟩
  rcases signedDiv_eq_ok_iff.1 hdiv with ⟨hne, hquotient⟩
  -- No step has failed, so what is left is exactly the remainder of the rounded quotient.
  have hleft : w'.nextRemainder.toInt = w.remainder.toInt.tmod w.nextRemainder.toInt := by
    rw [(signedSubMul_eq_ok_iff.1 hsub).2, hquotient, Int.tmod_def, mul_comm]
  have hpos : 0 < w.nextRemainder.toInt.natAbs :=
    Int.natAbs_pos.2 fun hzero => hne (BitVec.toInt_inj.1 (hzero.trans BitVec.toInt_zero.symm))
  rw [hleft, Int.natAbs_tmod]
  exact Nat.mod_lt _ hpos

/-- Divides until the next remainder is zero or a step fails. -/
def run (w : CheckedEuclid) : Except WordFault CheckedEuclid :=
  if w.nextRemainder = 0 then .ok w
  else
    match _h : w.next with
    | .error fault => .error fault
    | .ok w' => w'.run
termination_by w.nextRemainder.toInt.natAbs
decreasing_by exact natAbs_nextRemainder_lt _h

theorem run_of_eq_zero {w : CheckedEuclid} (h : w.nextRemainder = 0) : w.run = .ok w := by
  rw [run, if_pos h]

theorem run_of_next {w w' : CheckedEuclid} (hne : w.nextRemainder ≠ 0) (h : w.next = .ok w') :
    w.run = w'.run := by
  rw [run, if_neg hne]
  split <;> simp_all

theorem run_of_error {w : CheckedEuclid} {fault : WordFault} (hne : w.nextRemainder ≠ 0)
    (h : w.next = .error fault) : w.run = .error fault := by
  rw [run, if_neg hne]
  split <;> simp_all

/-- The states at which the loop on the words `a` and `m` looks whether to divide. -/
inductive Visits (a m : UInt64) : CheckedEuclid → Prop
  | start {w : CheckedEuclid} : start a m = .ok w → Visits a m w
  | next {w w' : CheckedEuclid} :
      Visits a m w → w.nextRemainder ≠ 0 → w.next = .ok w' → Visits a m w'

/-- A run that does not fail ends where the loop looks and does not divide. -/
theorem Visits.run {a m : UInt64} {w last : CheckedEuclid} (h : Visits a m w)
    (hrun : w.run = .ok last) : Visits a m last ∧ last.nextRemainder = 0 := by
  induction w using run.induct with
  | case1 w hzero =>
      cases (run_of_eq_zero hzero).symm.trans hrun
      exact ⟨h, hzero⟩
  | case2 w hne fault hfault =>
      cases (run_of_error hne hfault).symm.trans hrun
  | case3 w hne w' hnext ih =>
      exact ih (h.next hne hnext) ((run_of_next hne hnext).symm.trans hrun)

end CheckedEuclid

/-- The inverse by the loop on words. The last cofactor is reduced to a remainder that is not
negative. -/
def checkedInverse? (a m : UInt64) : Except WordFault (Option UInt64) := do
  let last ← (← CheckedEuclid.start a m).run
  if last.remainder = 1 then
    let inverse ← (signedMod last.cofactor (widen m)).map narrow
    return some inverse
  else
    return none

/-! ## The words of the algorithm -/

namespace CheckedEuclid

/-- The words have the numbers of the state. -/
structure Holds (w : CheckedEuclid) (s : EuclidState) : Prop where
  cofactor : w.cofactor.toInt = s.cofactor
  nextCofactor : w.nextCofactor.toInt = s.nextCofactor
  remainder : w.remainder.toInt = s.remainder
  nextRemainder : w.nextRemainder.toInt = s.nextRemainder

section

variable {w w' : CheckedEuclid} {s : EuclidState} {m : Modulus}

theorem Holds.nextRemainder_eq_zero_iff (h : w.Holds s) :
    w.nextRemainder = 0 ↔ s.nextRemainder = 0 := by
  rw [← BitVec.toInt_inj, h.nextRemainder]
  exact Int.natCast_eq_zero

/-- A number that is not larger than a modulus has a signed word. -/
theorem exists_toInt_eq {n : Int} (h : n.natAbs ≤ m.word.toNat) :
    ∃ c : BitVec 128, c.toInt = n := by
  have hm := m.word.toNat_lt
  exact ⟨.ofInt 128 n, BitVec.toInt_ofInt_eq_self (by decide) (by omega) (by omega)⟩

theorem exists_signedSubMul_eq_ok {a b factor : BitVec 128} {x y q : Int} (ha : a.toInt = x)
    (hb : b.toInt = y) (hfactor : factor.toInt = q) (hproduct : (q * y).natAbs ≤ m.word.toNat)
    (hle : (x - q * y).natAbs ≤ m.word.toNat) :
    ∃ c, signedSubMul a b factor = .ok c ∧ c.toInt = x - q * y := by
  subst ha hb hfactor
  rcases exists_toInt_eq hle with ⟨c, hc⟩
  exact ⟨c, signedSubMul_eq_ok_iff.2 ⟨exists_toInt_eq hproduct, hc⟩, hc⟩

theorem exists_start_eq_ok (a : UInt64) (m : Modulus) :
    ∃ w, start a m.word = .ok w ∧ w.Holds (.start a.toNat m.word.toNat) := by
  have hrem : signedRem (widen a) (widen m.word) = .ok ((widen a).srem (widen m.word)) :=
    signedDivision_eq_ok (toInt_widen_pos m) .srem
  refine ⟨_, Outcome.bind_eq_ok_iff.2 ⟨_, hrem, rfl⟩, ?_⟩
  exact
    { cofactor := rfl
      nextCofactor := rfl
      remainder := toInt_widen m.word
      nextRemainder := by
        rw [BitVec.toInt_srem, toInt_widen, toInt_widen]
        rfl }

/-- The divisor is positive, and neither a product nor a difference is larger than the modulus. -/
theorem Holds.exists_next_eq_ok (h : w.Holds s) (hs : s.Alternates m.word.toNat)
    (hne : s.nextRemainder ≠ 0) : ∃ w', w.next = .ok w' ∧ w'.Holds s.next := by
  have hnext := hs.next hne
  have hpos : 0 < w.nextRemainder.toInt := by
    rw [h.nextRemainder]
    exact Int.natCast_pos.2 (Nat.pos_of_ne_zero hne)
  have hdiv : signedDiv w.remainder w.nextRemainder = .ok (w.remainder.sdiv w.nextRemainder) :=
    signedDivision_eq_ok hpos .sdiv
  have hquotient : (w.remainder.sdiv w.nextRemainder).toInt = s.quotient := by
    rw [(signedDiv_eq_ok_iff.1 hdiv).2, h.remainder, h.nextRemainder]
    rfl
  have hmultiple_le : (s.quotient * s.nextRemainder : Int).natAbs ≤ m.word.toNat := by
    rw [← Int.natCast_mul, Int.natAbs_natCast]
    exact (Nat.div_mul_le_self _ _).trans hs.remainder_le
  have hremainder_le : (s.remainder - s.quotient * s.nextRemainder : Int).natAbs ≤
      m.word.toNat := by
    rw [← s.nextRemainder_next, Int.natAbs_natCast]
    exact hnext.nextRemainder_lt.le.trans hnext.remainder_le
  rcases exists_signedSubMul_eq_ok h.cofactor h.nextCofactor hquotient hs.natAbs_quotient_mul_le
    hnext.natAbs_nextCofactor_le with ⟨cofactor, hsub, hcofactor⟩
  rcases exists_signedSubMul_eq_ok h.remainder h.nextRemainder hquotient hmultiple_le
    hremainder_le with ⟨remainder, hsub', hremainder⟩
  refine ⟨⟨w.nextCofactor, cofactor, w.nextRemainder, remainder⟩, ?_, ?_⟩
  · exact next_eq_ok_iff.2 ⟨_, hdiv, hsub, hsub', rfl, rfl⟩
  · exact ⟨h.nextCofactor, hcofactor, h.nextRemainder, hremainder.trans s.nextRemainder_next.symm⟩

/-- With a cofactor that is out of bounds the product fails. -/
example : CheckedEuclid.next ⟨0, 2 ^ 126, 4, 1⟩ = .error .overflow := by
  decide +kernel

/-- The loop on words goes along with the algorithm, to the end. -/
theorem Holds.exists_run_eq_ok (h : w.Holds s) (hs : s.Alternates m.word.toNat) :
    ∃ last, w.run = .ok last ∧ last.Holds s.run := by
  induction s using EuclidState.run.induct generalizing w with
  | case1 s hzero =>
      rw [EuclidState.run_of_eq_zero hzero]
      exact ⟨w, run_of_eq_zero (h.nextRemainder_eq_zero_iff.2 hzero), h⟩
  | case2 s hne ih =>
      rcases h.exists_next_eq_ok hs hne with ⟨w', hnext, h'⟩
      rcases ih h' (hs.next hne) with ⟨last, hrun, hlast⟩
      rw [EuclidState.run_of_ne_zero hne]
      exact ⟨last, (run_of_next (h.nextRemainder_eq_zero_iff.not.2 hne) hnext).trans hrun, hlast⟩

end

section Visits

variable {a : UInt64} {m : Modulus}

/-- Where the loop comes past has the numbers of a state of the algorithm. -/
theorem Visits.exists_reaches {w : CheckedEuclid} (h : Visits a m.word w) :
    ∃ s, (EuclidState.start a.toNat m.word.toNat).Reaches s ∧ w.Holds s := by
  induction h with
  | start hstart =>
      -- There is only one state to begin with, and one after each division.
      rcases exists_start_eq_ok a m with ⟨w, hw, hholds⟩
      cases hw.symm.trans hstart
      exact ⟨_, .refl, hholds⟩
  | next _ hne hnext ih =>
      rcases ih with ⟨s, hs, hholds⟩
      have hne' := hholds.nextRemainder_eq_zero_iff.not.1 hne
      rcases hholds.exists_next_eq_ok (hs.alternates m.pos) hne' with ⟨w', hw', hholds'⟩
      cases hw'.symm.trans hnext
      exact ⟨_, hs.next hne', hholds'⟩

theorem exists_visits_of_reaches {s : EuclidState}
    (h : (EuclidState.start a.toNat m.word.toNat).Reaches s) :
    ∃ w, Visits a m.word w ∧ w.Holds s := by
  induction h with
  | refl =>
      rcases exists_start_eq_ok a m with ⟨w, hw, hholds⟩
      exact ⟨w, .start hw, hholds⟩
  | next hs hne ih =>
      rcases ih with ⟨w, hvisits, hholds⟩
      rcases hholds.exists_next_eq_ok (hs.alternates m.pos) hne with ⟨w', hnext, hholds'⟩
      exact ⟨w', hvisits.next (hholds.nextRemainder_eq_zero_iff.not.2 hne) hnext, hholds'⟩

theorem Visits.exists_next_eq_ok {w : CheckedEuclid} (h : Visits a m.word w)
    (hne : w.nextRemainder ≠ 0) : ∃ w', w.next = .ok w' := by
  rcases h.exists_reaches with ⟨s, hs, hholds⟩
  rcases hholds.exists_next_eq_ok (hs.alternates m.pos)
    (hholds.nextRemainder_eq_zero_iff.not.1 hne) with ⟨w', hnext, -⟩
  exact ⟨w', hnext⟩

end Visits

end CheckedEuclid

/-! ## The inverse in words -/

/-- A cofactor reduced by words is the one reduced as a number. -/
theorem checkedInverse?_eq (a : UInt64) (m : Modulus) :
    checkedInverse? a m.word =
      .ok ((modularInverse? a.toNat m.word.toNat).map UInt64.ofNat) := by
  rcases CheckedEuclid.exists_start_eq_ok a m with ⟨w, hstart, hholds⟩
  rcases hholds.exists_run_eq_ok (EuclidState.alternates_start _ m.pos) with ⟨last, hrun, hlast⟩
  have hone : last.remainder = 1 ↔
      (EuclidState.start a.toNat m.word.toNat).run.remainder = 1 := by
    rw [← BitVec.toInt_inj, hlast.remainder]
    exact Int.natCast_inj
  refine Outcome.bind_eq_ok_iff.2 ⟨w, hstart, Outcome.bind_eq_ok_iff.2 ⟨last, hrun, ?_⟩⟩
  by_cases hinvertible : (EuclidState.start a.toNat m.word.toNat).run.remainder = 1
  · rw [if_pos (hone.2 hinvertible), map_narrow_signedMod_eq, hlast.cofactor, modularInverse?,
      if_pos hinvertible]
    refine congrArg (fun b => Except.ok (some b)) (UInt64.toNat_inj.1 ?_)
    -- A residue is below the modulus, so its word is not cut off.
    have hlt := (Residue.ofInt m (EuclidState.start a.toNat m.word.toNat).run.cofactor).isLt
    rw [Residue.toNat_ofInt] at hlt ⊢
    exact (UInt64.toNat_ofNat_of_lt' (hlt.trans m.word.toNat_lt)).symm
  · rw [if_neg (hone.not.2 hinvertible), modularInverse?, if_neg hinvertible]
    rfl

/-- Modulo every word but zero, and for every word, the numbers of the loop obey the bounds of the
extended algorithm from the first division to the last, so that no step on signed words of 128 bits
fails. The loop ends at the greatest common divisor. -/
theorem euclid_fits_words (a : UInt64) (m : Modulus) :
    (∀ s, (EuclidState.start a.toNat m.word.toNat).Reaches s →
      s.Bounded a.toNat m.word.toNat ∧
        ∃ w, CheckedEuclid.Visits a m.word w ∧ w.Holds s) ∧
    (∀ w, CheckedEuclid.Visits a m.word w →
      (∃ s, (EuclidState.start a.toNat m.word.toNat).Reaches s ∧ w.Holds s) ∧
        (w.nextRemainder ≠ 0 → ∃ w', w.next = .ok w')) ∧
    (∃ first last, CheckedEuclid.start a m.word = .ok first ∧ first.run = .ok last ∧
      CheckedEuclid.Visits a m.word last ∧ last.nextRemainder = 0 ∧
        last.remainder.toInt = a.toNat.gcd m.word.toNat) ∧
    checkedInverse? a m.word =
      .ok ((modularInverse? a.toNat m.word.toNat).map UInt64.ofNat) := by
  refine ⟨?_, ?_, ?_, checkedInverse?_eq a m⟩
  · intro s hs
    exact ⟨hs.bounded m.pos, CheckedEuclid.exists_visits_of_reaches hs⟩
  · intro w hw
    exact ⟨hw.exists_reaches, hw.exists_next_eq_ok⟩
  · rcases CheckedEuclid.exists_start_eq_ok a m with ⟨first, hstart, hholds⟩
    rcases hholds.exists_run_eq_ok (EuclidState.alternates_start _ m.pos) with ⟨last, hrun, hlast⟩
    rcases (CheckedEuclid.Visits.start hstart).run hrun with ⟨hvisits, hzero⟩
    refine ⟨first, last, hstart, hrun, hvisits, hzero, ?_⟩
    rw [hlast.remainder, EuclidState.remainder_run]

/-- Modulo the largest word, two: the cofactors grow to the modulus, beyond the signed words of 64
bits. -/
theorem euclid_fits_words_largest_modulus :
    let m : Modulus := ⟨18446744073709551615, by decide⟩
    let s : EuclidState := ⟨1, -9223372036854775807, 2, 1⟩
    let w : CheckedEuclid := ⟨1, -9223372036854775807, 2, 1⟩
    (EuclidState.start 2 m.word.toNat).Reaches s ∧ s.Bounded 2 m.word.toNat ∧
      CheckedEuclid.Visits 2 m.word w ∧ w.Holds s ∧ w.nextRemainder ≠ 0 ∧
      (∃ w', w.next = .ok w') ∧ s.next.nextCofactor = m.word.toNat ∧
      checkedInverse? 2 m.word = .ok (some 9223372036854775808) := by
  intro m s w
  rcases euclid_fits_words 2 m with ⟨hreaches, hvisits, -, hinverse⟩
  have hnext : (EuclidState.start 2 m.word.toNat).next = s := by decide +kernel
  have hs : (EuclidState.start 2 m.word.toNat).Reaches s := hnext ▸ .next .refl (by decide)
  have hw : CheckedEuclid.Visits 2 m.word w :=
    (CheckedEuclid.Visits.start (w := ⟨0, 1, 18446744073709551615, 2⟩) (by decide +kernel)).next
      (by decide) (by decide +kernel)
  have hne : w.nextRemainder ≠ 0 := by decide
  have hhalf : modularInverse? 2 m.word.toNat = some 9223372036854775808 :=
    (modularInverse?_eq_some_iff (by decide)).2 ⟨by decide, by decide⟩
  have hholds : w.Holds s :=
    ⟨by decide +kernel, by decide +kernel, by decide +kernel, by decide +kernel⟩
  refine ⟨hs, (hreaches s hs).1, hw, hholds, hne, (hvisits w hw).2 hne, by decide +kernel, ?_⟩
  exact hinverse.trans (congrArg (fun b => Except.ok (Option.map UInt64.ofNat b)) hhalf)

end SymbolicPoly
