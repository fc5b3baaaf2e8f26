import Mathlib.Algebra.Group.TypeTags.Basic
import Mathlib.Algebra.Group.Basic
import SymbolicPoly.Proofs.Outcome
import SymbolicPoly.Ring.Basic

/-!
# Repetition — repeated squaring computes powers

`repeatOpM` reads the binary digits of `n` and combines its first argument with `n` copies of the
second. What a run keeps, and that it succeeds, is derived from its two steps
(`repeatOpM_ok_induction`, `exists_repeatOpM_eq_ok`), and a function that commutes with the
operation commutes with the loop (`repeatOpM_map`, `map_repeatOp`). When a view into a monoid turns
the operation into multiplication, the view of the result is a product with the `n`-th power:
`view_repeatOpM` for an operation that can fail, `view_repeatOp` for one that cannot. The monoid
need not be commutative.

Images of integers and powers of elements have loops of their own, which begin or end differently
(`addCopies_eq_repeatOp`, `ite_repeatOp`).

Sums are products in `Multiplicative`, so the same law gives `view_sumOfOnes`: the sum of `n` ones
is the `n`-th multiple of one.
-/

namespace SymbolicPoly

universe u v w

/-! ## The loop -/

section Unfolding

variable {α : Type u} {m : Type u → Type v} [Monad m]

@[simp]
theorem repeatOpM_zero (op : α → α → m α) (acc base : α) : repeatOpM op acc base 0 = pure acc := by
  simp [repeatOpM]

/-- The lowest digit, and then the other digits with the square of `base`, if any are left. -/
theorem repeatOpM_of_ne_zero [LawfulMonad m] (op : α → α → m α) (acc base : α) {n : Nat}
    (hn : n ≠ 0) :
    repeatOpM op acc base n =
      (if n % 2 = 1 then op acc base else pure acc) >>= fun acc =>
        if n / 2 = 0 then pure acc else op base base >>= fun base =>
          repeatOpM op acc base (n / 2) := by
  conv_lhs => unfold repeatOpM
  by_cases hdigit : n % 2 = 1 <;> simp [hn, hdigit]

@[simp]
theorem repeatOp_zero (op : α → α → α) (acc base : α) : repeatOp op acc base 0 = acc :=
  congrArg Id.run (repeatOpM_zero _ acc base)

/-- The same equation for an operation that cannot fail. -/
theorem repeatOp_of_ne_zero (op : α → α → α) (acc base : α) {n : Nat} (hn : n ≠ 0) :
    repeatOp op acc base n =
      if n / 2 = 0 then if n % 2 = 1 then op acc base else acc
      else repeatOp op (if n % 2 = 1 then op acc base else acc) (op base base) (n / 2) := by
  unfold repeatOp
  rw [repeatOpM_of_ne_zero _ acc base hn]
  by_cases hdigit : n % 2 = 1 <;> by_cases hlast : n / 2 = 0 <;>
    simp only [hdigit, hlast, if_true, if_false] <;> rfl

end Unfolding

section Runs

variable {ε : Type w} {α : Type u} {op : α → α → Except ε α}

/-- An invariant of the loop. Using an odd digit leaves an even number, and an even number is halved
when `base` is squared. -/
theorem repeatOpM_ok_induction {motive : α → α → Nat → Prop}
    (digit : ∀ {acc base next n}, n % 2 = 1 → motive acc base n → op acc base = .ok next →
      motive next base (n - 1))
    (square : ∀ {acc base next n}, n % 2 = 0 → motive acc base n → op base base = .ok next →
      motive acc next (n / 2))
    {acc base result : α} {n : Nat} (start : motive acc base n)
    (h : repeatOpM op acc base n = .ok result) : ∃ base', motive result base' 0 := by
  induction n using Nat.strongRecOn generalizing acc base with
  | _ n ih =>
      by_cases hn : n = 0
      · subst hn
        cases (repeatOpM_zero op acc base).symm.trans h
        exact ⟨base, start⟩
      · rcases Outcome.bind_eq_ok_iff.1 ((repeatOpM_of_ne_zero op acc base hn).symm.trans h) with
          ⟨next, hnext, hrest⟩
        -- Reading the lowest digit makes the number even, with or without a step.
        have hdigit : motive next base (n - n % 2) := by
          rcases Nat.mod_two_eq_zero_or_one n with hmod | hmod
          · have heven : acc = next := by simpa [hmod, pure, Except.pure] using hnext
            simpa [hmod, ← heven] using start
          · have hodd : op acc base = .ok next := by simpa [hmod] using hnext
            simpa [hmod] using digit hmod start hodd
        by_cases hlast : n / 2 = 0
        · -- It was the last digit, so nothing is left.
          have hresult : next = result := by simpa [hlast, pure, Except.pure] using hrest
          have hnone : n - n % 2 = 0 := by omega
          exact ⟨base, hresult ▸ hnone ▸ hdigit⟩
        · -- Squaring the base halves what is left.
          simp only [hlast, if_false] at hrest
          rcases Outcome.bind_eq_ok_iff.1 hrest with ⟨base', hsquare, hrest⟩
          have hhalf : (n - n % 2) / 2 = n / 2 := by omega
          have heven : (n - n % 2) % 2 = 0 := by omega
          exact ih (n / 2) (by omega) (hhalf ▸ square heven hdigit hsquare) hrest

/-- An invariant under which every step succeeds lets the loop succeed. The base is squared only
while a digit is left, so in that step `n` is even and not zero. -/
theorem exists_repeatOpM_eq_ok {motive : α → α → Nat → Prop}
    (digit : ∀ {acc base n}, n % 2 = 1 → motive acc base n →
      ∃ next, op acc base = .ok next ∧ motive next base (n - 1))
    (square : ∀ {acc base n}, n % 2 = 0 → n ≠ 0 → motive acc base n →
      ∃ next, op base base = .ok next ∧ motive acc next (n / 2))
    {acc base : α} {n : Nat} (start : motive acc base n) :
    ∃ result, repeatOpM op acc base n = .ok result := by
  induction n using Nat.strongRecOn generalizing acc base with
  | _ n ih =>
      by_cases hn : n = 0
      · subst hn
        exact ⟨acc, repeatOpM_zero op acc base⟩
      · have hdigit : ∃ next, (if n % 2 = 1 then op acc base else pure acc) = .ok next ∧
            motive next base (n - n % 2) := by
          rcases Nat.mod_two_eq_zero_or_one n with hmod | hmod
          · exact ⟨acc, by simp [hmod, pure, Except.pure], by simpa [hmod] using start⟩
          · rcases digit hmod start with ⟨next, hnext, hmotive⟩
            exact ⟨next, by simp [hmod, hnext], by simpa [hmod] using hmotive⟩
        rcases hdigit with ⟨next, hnext, hmotive⟩
        have hrest : ∃ result, (if n / 2 = 0 then pure next else op base base >>= fun base =>
            repeatOpM op next base (n / 2)) = .ok result := by
          by_cases hlast : n / 2 = 0
          · exact ⟨next, by simp [hlast, pure, Except.pure]⟩
          · rcases square (by omega) (by omega) hmotive with ⟨base', hsquare, hmotive⟩
            have hhalf : (n - n % 2) / 2 = n / 2 := by omega
            rcases ih (n / 2) (by omega) (hhalf ▸ hmotive) with ⟨result, hresult⟩
            refine ⟨result, ?_⟩
            simpa [hlast] using Outcome.bind_eq_ok_iff.2 ⟨base', hsquare, hresult⟩
        rcases hrest with ⟨result, hresult⟩
        exact ⟨result, (repeatOpM_of_ne_zero op acc base hn).trans
          (Outcome.bind_eq_ok_iff.2 ⟨next, hnext, hresult⟩)⟩

/-- What every result of the operation has, the result of the loop has. -/
theorem repeatOpM_ok_of_op {P : α → Prop} (hop : ∀ {a b c}, op a b = .ok c → P c)
    {acc base result : α} {n : Nat} (hacc : P acc) (h : repeatOpM op acc base n = .ok result) :
    P result := by
  have hrun := repeatOpM_ok_induction (motive := fun acc _ _ => P acc)
    (fun _ _ hnext => hop hnext) (fun _ hacc _ => hacc) hacc h
  exact hrun.elim fun _ hresult => hresult

/-- A function that carries the results of one operation to those of another one carries a run of the
loop along. -/
theorem repeatOpM_map {β : Type v} {op' : β → β → Except ε β} (f : α → β)
    (hop : ∀ {a b c}, op a b = .ok c → op' (f a) (f b) = .ok (f c)) {acc base result : α} {n : Nat}
    (h : repeatOpM op acc base n = .ok result) :
    repeatOpM op' (f acc) (f base) n = .ok (f result) := by
  induction n using Nat.strongRecOn generalizing acc base with
  | _ n ih =>
      by_cases hn : n = 0
      · subst hn
        cases (repeatOpM_zero op acc base).symm.trans h
        exact repeatOpM_zero op' _ _
      · rcases Outcome.bind_eq_ok_iff.1 ((repeatOpM_of_ne_zero op acc base hn).symm.trans h) with
          ⟨next, hnext, hrest⟩
        rw [repeatOpM_of_ne_zero op' _ _ hn]
        refine Outcome.bind_eq_ok_iff.2 ⟨f next, ?_, ?_⟩
        · -- Both runs read the same digits.
          split_ifs at hnext ⊢ with hdigit
          · exact hop hnext
          · cases hnext
            rfl
        · split_ifs at hrest ⊢ with hlast
          · cases hrest
            rfl
          · rcases Outcome.bind_eq_ok_iff.1 hrest with ⟨base', hsquare, hrest⟩
            exact Outcome.bind_eq_ok_iff.2 ⟨f base', hop hsquare, ih (n / 2) (by omega) hrest⟩

/-- An operation that cannot fail. -/
theorem repeatOpM_ok (op : α → α → α) (acc base : α) (n : Nat) :
    repeatOpM (fun a b => (.ok (op a b) : Except ε α)) acc base n =
      .ok (repeatOp op acc base n) := by
  induction n using Nat.strongRecOn generalizing acc base with
  | _ n ih =>
      by_cases hn : n = 0
      · subst hn
        simp [repeatOp, pure, Except.pure, Id.run]
      · rw [repeatOpM_of_ne_zero _ acc base hn, repeatOp_of_ne_zero op acc base hn]
        by_cases hdigit : n % 2 = 1 <;> by_cases hlast : n / 2 = 0 <;>
          simp [hdigit, hlast, bind, Except.bind, pure, Except.pure, ih (n / 2) (by omega)]

/-- A function that commutes with an operation that cannot fail commutes with its loop. -/
theorem map_repeatOp {β : Type v} {op : α → α → α} {op' : β → β → β} (f : α → β)
    (hop : ∀ a b, f (op a b) = op' (f a) (f b)) (acc base : α) (n : Nat) :
    f (repeatOp op acc base n) = repeatOp op' (f acc) (f base) n := by
  have hrun : repeatOpM (fun a b => (.ok (op' a b) : Except Unit β)) (f acc) (f base) n =
      .ok (f (repeatOp op acc base n)) := by
    refine repeatOpM_map f ?_ (repeatOpM_ok op acc base n)
    intro a b c hc
    cases hc
    exact congrArg Except.ok (hop a b).symm
  exact (Except.ok.inj ((repeatOpM_ok op' (f acc) (f base) n).symm.trans hrun)).symm

end Runs

/-! ## Loops that differ in their ends -/

section Ends

variable {α : Type u} (op : α → α → α) (acc base : α)

/-- Telling apart the exponent zero saves no more than a step that does nothing. -/
@[simp]
theorem ite_repeatOp (n : Nat) :
    (if n = 0 then acc else repeatOp op acc base n) = repeatOp op acc base n := by
  by_cases hn : n = 0
  · simp [hn]
  · simp [hn]

/-- The last double is not used, so it does not matter that there is one. -/
theorem addCopies_eq_repeatOp (n : Nat) : addCopies op acc base n = repeatOp op acc base n := by
  induction n using Nat.strongRecOn generalizing acc base with
  | _ n ih =>
      rw [addCopies]
      by_cases hn : n = 0
      · simp [hn]
      · rw [if_neg hn, repeatOp_of_ne_zero op acc base hn, ih (n / 2) (by omega)]
        by_cases hlast : n / 2 = 0
        · simp [hlast]
        · simp [hlast]

end Ends

/-! ## Powers -/

section Views

variable {α : Type u} {M : Type v} [Monoid M]

theorem view_repeatOpM {ε : Type w} (view : α → M) {op : α → α → Except ε α}
    (hop : ∀ {a b c}, op a b = .ok c → view c = view a * view b) {acc base result : α} {n : Nat}
    (h : repeatOpM op acc base n = .ok result) : view result = view acc * view base ^ n := by
  -- The product of the accumulator with the power that is still to come never changes.
  have hrun := repeatOpM_ok_induction
    (motive := fun acc' base' k => view acc' * view base' ^ k = view acc * view base ^ n)
    ?digit ?square rfl h
  case digit =>
    intro acc' base' next k hodd hacc hnext
    have hk : k = (k - 1) + 1 := by omega
    rw [hop hnext, mul_assoc, ← pow_succ', ← hk, hacc]
  case square =>
    intro acc' base' next k heven hacc hnext
    have hk : k = 2 * (k / 2) := by omega
    rw [hop hnext, ← pow_two, ← pow_mul, ← hk, hacc]
  rcases hrun with ⟨base', hresult⟩
  simpa using hresult

theorem view_repeatOp (view : α → M) {op : α → α → α}
    (hop : ∀ a b, view (op a b) = view a * view b) (acc base : α) (n : Nat) :
    view (repeatOp op acc base n) = view acc * view base ^ n := by
  have hrun : repeatOpM (fun a b => (.ok (op a b) : Except Unit α)) acc base n =
      .ok (repeatOp op acc base n) := repeatOpM_ok op acc base n
  refine view_repeatOpM view ?_ hrun
  intro a b c hc
  cases hc
  exact hop a b

/-- From one on, the loop computes a power. -/
theorem repeatOp_one_eq_pow {op : M → M → M} (hop : ∀ a b, op a b = a * b) (a : M) (n : Nat) :
    repeatOp op 1 a n = a ^ n :=
  (view_repeatOp (fun x => x) hop 1 a n).trans (one_mul (a ^ n))

end Views

/-! ## Images of integers -/

section Multiples

variable {α : Type u} {A : Type v} [AddGroup A]

/-- Where a view turns the sum and the negative into those of a group, the image of an integer is a
multiple. -/
theorem view_sumOfOnes (view : α → A) {zero one : α} {add : α → α → α} {neg : α → α}
    (hzero : view zero = 0) (hadd : ∀ a b, view (add a b) = view a + view b)
    (hneg : ∀ a, view (neg a) = -view a) (n : Int) :
    view (sumOfOnes zero one add neg n) = n • view one := by
  -- A repeated sum is a power in the multiplicative notation.
  have hsize : ∀ k : Nat, view (repeatOp add zero one k) = k • view one := by
    intro k
    have hpower := view_repeatOp (fun a => Multiplicative.ofAdd (view a))
      (fun a b => congrArg Multiplicative.ofAdd (hadd a b)) zero one k
    simpa [hzero] using congrArg Multiplicative.toAdd hpower
  unfold sumOfOnes
  rw [addCopies_eq_repeatOp]
  cases n with
  | ofNat n =>
      have hnonneg : ¬ (n : Int) < 0 := Int.not_lt.2 (Int.natCast_nonneg n)
      simp [hsize, hnonneg]
  | negSucc n =>
      simp [hsize, hneg, Int.negSucc_lt_zero]

theorem sumOfOnes_eq_zsmul (one : A) (n : Int) :
    sumOfOnes 0 one (· + ·) (- ·) n = n • one :=
  view_sumOfOnes (fun a => a) rfl (fun _ _ => rfl) (fun _ => rfl) n

end Multiples

end SymbolicPoly
