import Mathlib.Tactic.Linarith
import Mathlib.Tactic.Ring
import SymbolicPoly.Proofs.Ring.Euclid

/-!
# Cofactors — how large the numbers of the extended algorithm become

A division multiplies a cofactor by a quotient, so the cofactors grow while the remainders shrink.
They stay below the modulus nevertheless. Two consecutive cofactors have opposite signs, so what a
division adds up are their sizes, and each size times the remainder of the other one gives a sum that
no division changes: it is the modulus (`Alternates`).

`Reaches.bounded` is what follows for every state of a run: the remainders decrease, the cofactors
belong to them, and no number in the state or on the way to the next one is larger than the modulus.
-/

namespace SymbolicPoly

namespace EuclidState

variable {a m : Nat} {s : EuclidState}

/-! ## The states of a run -/

/-- The states that the run from `s` comes past, from the first to the last. -/
inductive Reaches (s : EuclidState) : EuclidState → Prop
  | refl : Reaches s s
  | next {t : EuclidState} : Reaches s t → t.nextRemainder ≠ 0 → Reaches s t.next

/-! ## Signs and sizes of the cofactors -/

/-- Opposite numbers differ by the sum of their sizes. -/
theorem natAbs_sub_of_mul_nonpos {x y : Int} (h : x * y ≤ 0) :
    (x - y).natAbs = x.natAbs + y.natAbs := by
  rcases mul_nonpos_iff.1 h with ⟨hx, hy⟩ | ⟨hx, hy⟩ <;> omega

/-- The cofactors take turns in sign, do not get smaller, and weighted with the remainders they add up
to `m`. -/
structure Alternates (m : Nat) (s : EuclidState) : Prop where
  nextRemainder_lt : s.nextRemainder < s.remainder
  remainder_le : s.remainder ≤ m
  opposite : s.cofactor * s.nextCofactor ≤ 0
  natAbs_le : s.cofactor.natAbs ≤ s.nextCofactor.natAbs
  determinant : s.nextCofactor.natAbs * s.remainder + s.cofactor.natAbs * s.nextRemainder = m

theorem alternates_start (a : Nat) (hm : 0 < m) : (start a m).Alternates m where
  nextRemainder_lt := Nat.mod_lt a hm
  remainder_le := le_rfl
  opposite := by simp [start]
  natAbs_le := by simp [start]
  determinant := by simp [start]

namespace Alternates

theorem natAbs_nextCofactor_next (h : s.Alternates m) :
    s.next.nextCofactor.natAbs = s.cofactor.natAbs + s.quotient * s.nextCofactor.natAbs := by
  have hopposite : s.cofactor * (s.quotient * s.nextCofactor) ≤ 0 := by
    have hproduct := mul_nonpos_of_nonneg_of_nonpos (Int.natCast_nonneg s.quotient) h.opposite
    linarith [mul_left_comm s.cofactor (s.quotient : Int) s.nextCofactor]
  calc
    (s.cofactor - s.quotient * s.nextCofactor).natAbs
        = s.cofactor.natAbs + (s.quotient * s.nextCofactor : Int).natAbs :=
          natAbs_sub_of_mul_nonpos hopposite
    _ = s.cofactor.natAbs + s.quotient * s.nextCofactor.natAbs := by
          rw [Int.natAbs_mul, Int.natAbs_natCast]

/-- A division keeps signs, sizes and the sum. The quotient is positive, since the remainders
decrease. -/
theorem next (h : s.Alternates m) (hne : s.nextRemainder ≠ 0) : s.next.Alternates m where
  nextRemainder_lt := Nat.mod_lt _ (Nat.pos_of_ne_zero hne)
  remainder_le := h.nextRemainder_lt.le.trans h.remainder_le
  opposite := by
    have hsquare : 0 ≤ (s.quotient : Int) * (s.nextCofactor * s.nextCofactor) :=
      mul_nonneg (Int.natCast_nonneg s.quotient) (mul_self_nonneg s.nextCofactor)
    have hopposite := h.opposite
    calc
      s.nextCofactor * (s.cofactor - s.quotient * s.nextCofactor)
          = s.cofactor * s.nextCofactor - s.quotient * (s.nextCofactor * s.nextCofactor) := by ring
      _ ≤ 0 := by omega
  natAbs_le := by
    have hquotient : 1 ≤ s.quotient :=
      Nat.div_pos h.nextRemainder_lt.le (Nat.pos_of_ne_zero hne)
    have hgrows := Nat.mul_le_mul_right s.nextCofactor.natAbs hquotient
    rw [h.natAbs_nextCofactor_next]
    change s.nextCofactor.natAbs ≤ _
    omega
  determinant := by
    rw [h.natAbs_nextCofactor_next]
    calc
      (s.cofactor.natAbs + s.quotient * s.nextCofactor.natAbs) * s.nextRemainder +
          s.nextCofactor.natAbs * (s.remainder % s.nextRemainder)
          = s.nextCofactor.natAbs *
              (s.nextRemainder * (s.remainder / s.nextRemainder) + s.remainder % s.nextRemainder) +
            s.cofactor.natAbs * s.nextRemainder := by
            rw [quotient]
            ring
      _ = s.nextCofactor.natAbs * s.remainder + s.cofactor.natAbs * s.nextRemainder := by
            rw [Nat.div_add_mod]
      _ = m := h.determinant

/-- The sum of which it is a part leaves no room for a larger number. -/
theorem natAbs_nextCofactor_mul_le (h : s.Alternates m) :
    s.nextCofactor.natAbs * s.remainder ≤ m := by
  have hsum := h.determinant
  omega

theorem natAbs_nextCofactor_le (h : s.Alternates m) : s.nextCofactor.natAbs ≤ m :=
  (Nat.le_mul_of_pos_right _ (Nat.zero_lt_of_lt h.nextRemainder_lt)).trans
    h.natAbs_nextCofactor_mul_le

theorem natAbs_quotient_mul_le (h : s.Alternates m) :
    (s.quotient * s.nextCofactor : Int).natAbs ≤ m := by
  have hquotient : s.quotient ≤ s.remainder := Nat.div_le_self _ _
  calc
    (s.quotient * s.nextCofactor : Int).natAbs = s.nextCofactor.natAbs * s.quotient := by
          rw [Int.natAbs_mul, Int.natAbs_natCast, mul_comm]
    _ ≤ s.nextCofactor.natAbs * s.remainder := Nat.mul_le_mul_left _ hquotient
    _ ≤ m := h.natAbs_nextCofactor_mul_le

end Alternates

/-! ## Bounds -/

/-- What holds wherever the run of `a` modulo `m` comes past, the product that the next division takes
included. -/
structure Bounded (a m : Nat) (s : EuclidState) : Prop where
  nextRemainder_lt : s.nextRemainder < s.remainder
  remainder_le : s.remainder ≤ m
  cofactor : s.cofactor * a ≡ s.remainder [ZMOD m]
  nextCofactor : s.nextCofactor * a ≡ s.nextRemainder [ZMOD m]
  opposite : s.cofactor * s.nextCofactor ≤ 0
  determinant : s.nextCofactor.natAbs * s.remainder + s.cofactor.natAbs * s.nextRemainder = m
  natAbs_cofactor_le : s.cofactor.natAbs ≤ m
  natAbs_nextCofactor_le : s.nextCofactor.natAbs ≤ m
  natAbs_quotient_mul_le : (s.quotient * s.nextCofactor : Int).natAbs ≤ m

theorem Alternates.bounded (h : s.Alternates m) (hkeeps : s.Keeps a m) : s.Bounded a m :=
  { h, hkeeps with
    natAbs_cofactor_le := h.natAbs_le.trans h.natAbs_nextCofactor_le
    natAbs_nextCofactor_le := h.natAbs_nextCofactor_le
    natAbs_quotient_mul_le := h.natAbs_quotient_mul_le }

theorem Reaches.keeps (h : (start a m).Reaches s) : s.Keeps a m := by
  induction h with
  | refl =>
      exact keeps_start a m
  | next _ _ ih =>
      exact ih.next

theorem Reaches.alternates (hm : 0 < m) (h : (start a m).Reaches s) : s.Alternates m := by
  induction h with
  | refl =>
      exact alternates_start a hm
  | next _ hne ih =>
      exact ih.next hne

theorem Reaches.bounded (hm : 0 < m) (h : (start a m).Reaches s) : s.Bounded a m :=
  (h.alternates hm).bounded h.keeps

end EuclidState

end SymbolicPoly
