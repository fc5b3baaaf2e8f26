import Mathlib.Data.Int.GCD
import Mathlib.Data.Int.ModEq
import Mathlib.Data.Nat.ModEq
import Mathlib.Logic.Function.Iterate
import SymbolicPoly.Ring.ModularInverse

/-!
# Euclid — what the divisions of the extended algorithm keep

Two remainders follow each other, and each has a cofactor. A division replaces the pair by the next
one. What it keeps is `EuclidState.Keeps`: a cofactor times `a` is congruent to its remainder, and
the two remainders have the greatest common divisor of `a` and `m`.

The remainders decrease, so that after finitely many divisions the next one is zero
(`run_eq_iterate`). The last remainder is then the greatest common divisor, and if it is one its
cofactor inverts `a`. No other number below `m` does (`modularInverse?_eq_some_iff`).
-/

namespace SymbolicPoly

namespace EuclidState

/-! ## Runs -/

theorem run_of_eq_zero {s : EuclidState} (h : s.nextRemainder = 0) : s.run = s := by
  rw [run, dif_pos h]

theorem run_of_ne_zero {s : EuclidState} (h : s.nextRemainder ≠ 0) : s.run = s.next.run := by
  rw [run, dif_neg h]

/-- What each division keeps, the run keeps. -/
theorem run_induction {motive : EuclidState → Prop}
    (step : ∀ s, s.nextRemainder ≠ 0 → motive s → motive s.next) {s : EuclidState}
    (start : motive s) : motive s.run := by
  induction s using run.induct with
  | case1 s h =>
      exact (run_of_eq_zero h).symm ▸ start
  | case2 s h ih =>
      exact (run_of_ne_zero h).symm ▸ ih (step s h start)

/-- A run makes finitely many divisions, and stops at the first remainder that is zero. -/
theorem run_eq_iterate (s : EuclidState) :
    ∃ n, s.run = next^[n] s ∧ (next^[n] s).nextRemainder = 0 ∧
      ∀ k < n, (next^[k] s).nextRemainder ≠ 0 := by
  induction s using run.induct with
  | case1 s h =>
      refine ⟨0, run_of_eq_zero h, h, ?_⟩
      intro k hk
      cases hk
  | case2 s h ih =>
      rcases ih with ⟨n, hrun, hlast, hbefore⟩
      refine ⟨n + 1, (run_of_ne_zero h).trans hrun, hlast, ?_⟩
      intro k hk
      cases k with
      | zero =>
          exact h
      | succ k =>
          exact hbefore k (Nat.lt_of_succ_lt_succ hk)

theorem nextRemainder_run (s : EuclidState) : s.run.nextRemainder = 0 := by
  rcases s.run_eq_iterate with ⟨n, hrun, hlast, -⟩
  exact hrun ▸ hlast

/-! ## Invariant -/

/-- The cofactors of the remainders of `a` and `m`. -/
structure Keeps (a m : Nat) (s : EuclidState) : Prop where
  cofactor : s.cofactor * a ≡ s.remainder [ZMOD m]
  nextCofactor : s.nextCofactor * a ≡ s.nextRemainder [ZMOD m]
  gcd_eq : s.remainder.gcd s.nextRemainder = a.gcd m

theorem keeps_start (a m : Nat) : (start a m).Keeps a m where
  cofactor := by simp [start, Int.modEq_iff_dvd]
  nextCofactor := by
    have hmod : (a : Int) ≡ a % m [ZMOD m] := (Int.mod_modEq a m).symm
    simpa [start] using hmod
  gcd_eq := by
    rw [start, Nat.gcd_comm m, ← Nat.gcd_rec, Nat.gcd_comm]

theorem nextRemainder_next (s : EuclidState) :
    (s.next.nextRemainder : Int) = s.remainder - s.quotient * s.nextRemainder := by
  have hdivision := Nat.mod_add_div' s.remainder s.nextRemainder
  simp only [next, quotient]
  omega

/-- The new remainder is the old one less a multiple of the next, and so is its cofactor. -/
theorem Keeps.next {a m : Nat} {s : EuclidState} (h : s.Keeps a m) : s.next.Keeps a m where
  cofactor := h.nextCofactor
  nextCofactor := by
    calc
      (s.cofactor - s.quotient * s.nextCofactor) * a
          = s.cofactor * a - s.quotient * (s.nextCofactor * a) := by rw [sub_mul, mul_assoc]
      _ ≡ s.remainder - s.quotient * s.nextRemainder [ZMOD m] :=
            h.cofactor.sub (h.nextCofactor.mul_left _)
      _ = s.next.nextRemainder := s.nextRemainder_next.symm
  gcd_eq := by
    calc
      s.nextRemainder.gcd (s.remainder % s.nextRemainder)
          = s.remainder.gcd s.nextRemainder := by
            rw [Nat.gcd_comm, ← Nat.gcd_rec, Nat.gcd_comm]
      _ = a.gcd m := h.gcd_eq

theorem keeps_run (a m : Nat) : (start a m).run.Keeps a m :=
  run_induction (fun _ _ h => h.next) (keeps_start a m)

/-- The last remainder that is not zero. -/
theorem remainder_run (a m : Nat) : (start a m).run.remainder = a.gcd m := by
  have hgcd := (keeps_run a m).gcd_eq
  rwa [nextRemainder_run, Nat.gcd_zero_right] at hgcd

end EuclidState

/-! ## The inverse -/

theorem modularInverse?_of_not_coprime {a m : Nat} (h : ¬ a.Coprime m) :
    modularInverse? a m = none := by
  have hlast : (EuclidState.start a m).run.remainder ≠ 1 := by
    rw [EuclidState.remainder_run]
    exact h
  simp [modularInverse?, hlast]

theorem exists_modularInverse?_of_coprime {a m : Nat} (hm : 0 < m) (h : a.Coprime m) :
    ∃ b, modularInverse? a m = some b ∧ a * b ≡ 1 [MOD m] := by
  have hlast : (EuclidState.start a m).run.remainder = 1 := (EuclidState.remainder_run a m).trans h
  refine ⟨((EuclidState.start a m).run.cofactor % m).toNat, by simp [modularInverse?, hlast], ?_⟩
  have hcofactor := (EuclidState.keeps_run a m).cofactor
  have hnonneg := Int.emod_nonneg (EuclidState.start a m).run.cofactor (Int.natCast_pos.2 hm).ne'
  -- Reducing the cofactor changes it by a multiple of the modulus.
  rw [hlast] at hcofactor
  rw [← Int.natCast_modEq_iff]
  push_cast
  rw [Int.toNat_of_nonneg hnonneg, mul_comm]
  exact ((Int.mod_modEq _ _).mul_right _).trans hcofactor

/-- The inverse is the one number below the modulus whose product with `a` is congruent to one. -/
theorem modularInverse?_eq_some_iff {a m b : Nat} (hm : 0 < m) :
    modularInverse? a m = some b ↔ b < m ∧ a * b ≡ 1 [MOD m] := by
  constructor
  · intro h
    have hcoprime : a.Coprime m := by
      by_contra hnot
      cases (modularInverse?_of_not_coprime hnot).symm.trans h
    rcases exists_modularInverse?_of_coprime hm hcoprime with ⟨c, hc, hproduct⟩
    cases h.symm.trans hc
    exact ⟨modularInverse?_lt hm h, hproduct⟩
  · rintro ⟨hlt, hproduct⟩
    have hcoprime : a.Coprime m := Nat.coprime_of_mul_modEq_one b hproduct
    rcases exists_modularInverse?_of_coprime hm hcoprime with ⟨c, hc, hproduct'⟩
    -- A factor that is coprime to the modulus cancels.
    have hbc : b ≡ c [MOD m] :=
      Nat.ModEq.cancel_left_of_coprime hcoprime.symm (hproduct.trans hproduct'.symm)
    exact hc.trans (congrArg some (hbc.eq_of_lt_of_lt hlt (modularInverse?_lt hm hc)).symm)

end SymbolicPoly
