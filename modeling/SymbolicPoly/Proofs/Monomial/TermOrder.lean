import SymbolicPoly.Proofs.Monomial.Graded
import SymbolicPoly.Proofs.Outcome

/-!
# Term order — the graded order is a monomial order

`compareGraded` is a linear order that compares equal only what is equal. What comes first has the
larger total degree, or, among equal degrees, the larger exponent at the first symbol where two
monomials differ (`compareGraded_eq_lt_iff`). The monomial without factors comes last, and multiplying
both sides by the same monomial does not change how they compare (`compareGraded_mul`).

Each of these is a property of `DegLex (Symbol →₀ Nat)`, read through `gradedKey` with first and last
exchanged. Only the bound on total degrees is about words: below 2 ^ 32 factors a total degree is a
word of 64 bits (`totalDegree_lt`).
-/

namespace SymbolicPoly

namespace Monomial

/-! ## A linear order -/

theorem compareGraded_eq : compareGraded = fun a b => compareOn gradedKey b a :=
  funext fun a => funext (compareGraded_eq_compare a)

instance : Std.TransCmp compareGraded := by
  rw [compareGraded_eq]
  infer_instance

instance : Std.LawfulEqCmp compareGraded where
  eq_of_compare {a b} h := by
    rw [compareGraded_eq_compare] at h
    exact (gradedKey_injective (compare_eq_iff_eq.1 h)).symm

theorem isLE_compareGraded_total (a b : Monomial) :
    (compareGraded a b).isLE = true ∨ (compareGraded b a).isLE = true := by
  rw [@Std.OrientedCmp.eq_swap _ compareGraded _ b a]
  cases compareGraded a b <;> simp

/-! ## What comes first -/

theorem compareGraded_eq_lt_iff {a b : Monomial} :
    compareGraded a b = .lt ↔
      b.totalDegree < a.totalDegree ∨
        a.totalDegree = b.totalDegree ∧
          ∃ s, (∀ t < s, a.exponent t = b.exponent t) ∧ b.exponent s < a.exponent s := by
  rw [compareGraded_eq_compare, compare_lt_iff_lt, Finsupp.DegLex.lt_iff]
  simp only [gradedKey, ofDegLex_toDegLex, degree_toFinsupp, Finsupp.Lex.lt_iff, ofLex_toLex,
    toFinsupp_apply, UInt32.toNat_inj, UInt32.lt_iff_toNat_lt, eq_comm]

theorem gradedKey_one : one.gradedKey = ⊥ :=
  congrArg toDegLex toFinsupp_one

/-- No exponents are fewer than none. -/
theorem compareGraded_one {a : Monomial} (ha : a ≠ one) : compareGraded a one = .lt := by
  rw [compareGraded_eq_compare, compare_lt_iff_lt, gradedKey_one, bot_lt_iff_ne_bot, ← gradedKey_one]
  exact gradedKey_injective.ne ha

/-! ## Products -/

theorem gradedKey_mul {a b n : Monomial} (h : a.mul b = .ok n) :
    n.gradedKey = a.gradedKey + b.gradedKey :=
  congrArg toDegLex (mul_eq_ok_iff_toFinsupp.1 h)

theorem compareGraded_mul {a b c m n : Monomial} (hm : a.mul c = .ok m) (hn : b.mul c = .ok n) :
    compareGraded m n = compareGraded a b := by
  calc
    compareGraded m n
        = compare (b.gradedKey + c.gradedKey) (a.gradedKey + c.gradedKey) := by
          rw [compareGraded_eq_compare, gradedKey_mul hm, gradedKey_mul hn]
    _ = compare b.gradedKey a.gradedKey := by
          rw [← cmp_eq_compare, cmp_add_right, cmp_eq_compare]
    _ = compareGraded a b := (compareGraded_eq_compare a b).symm

/-! ## Total degrees as words -/

theorem totalDegree_eq_sum (m : Monomial) :
    m.totalDegree = (m.factors.map fun f => f.2.toNat).sum := by
  rw [totalDegree, List.sum_eq_foldr, List.foldr_map]

/-- Each factor adds at most the largest word. -/
theorem totalDegree_le (m : Monomial) : m.totalDegree ≤ m.size * (2 ^ 32 - 1) := by
  have hexponent : ∀ d ∈ m.factors.map fun f => f.2.toNat, d ≤ 2 ^ 32 - 1 := by
    intro d hd
    rcases List.mem_map.1 hd with ⟨f, -, rfl⟩
    exact Nat.le_sub_one_of_lt f.2.toNat_lt
  have hsum := List.sum_le_card_nsmul _ _ hexponent
  rwa [← totalDegree_eq_sum, List.length_map, smul_eq_mul] at hsum

theorem totalDegree_lt {m : Monomial} (h : m.size < 2 ^ 32) : m.totalDegree < 2 ^ 64 := by
  have hle := m.totalDegree_le
  omega

/-- The graded order is a monomial order: linear, by degree and then by the first exponent that
differs, last at the monomial without factors, and compatible with products. -/
theorem graded_monomial_order :
    (∀ m : Monomial, m.size < 2 ^ 32 → m.totalDegree < 2 ^ 64) ∧
      (∀ a b, compareGraded a b = (compareGraded b a).swap) ∧
      (∀ a b c, (compareGraded a b).isLE = true → (compareGraded b c).isLE = true →
        (compareGraded a c).isLE = true) ∧
      (∀ a b, (compareGraded a b).isLE = true ∨ (compareGraded b a).isLE = true) ∧
      (∀ a b, compareGraded a b = .eq ↔ a = b) ∧
      (∀ a b, compareGraded a b = .lt ↔
        b.totalDegree < a.totalDegree ∨
          a.totalDegree = b.totalDegree ∧
            ∃ s, (∀ t < s, a.exponent t = b.exponent t) ∧ b.exponent s < a.exponent s) ∧
      (∀ a, a ≠ one → compareGraded a one = .lt) ∧
      ∀ a b c m n, a.mul c = .ok m → b.mul c = .ok n → compareGraded m n = compareGraded a b := by
  refine ⟨?_, ?_, ?_, ?_, ?_, ?_, ?_, ?_⟩
  · intro m hm
    exact totalDegree_lt hm
  · intro a b
    exact Std.OrientedCmp.eq_swap
  · intro a b c hab hbc
    exact Std.TransCmp.isLE_trans hab hbc
  · exact isLE_compareGraded_total
  · intro a b
    exact Std.LawfulEqCmp.compare_eq_iff_eq
  · intro a b
    exact compareGraded_eq_lt_iff
  · intro a ha
    exact compareGraded_one ha
  · intro a b c m n hm hn
    exact compareGraded_mul hm hn

/-- `x ^ 2 * z` comes before `x * y ^ 2`, and so it does after a factor that brings the exponent of
`x` to the largest one. -/
theorem graded_monomial_order_largest_exponent :
    let x : Symbol := ⟨"x"⟩
    let y : Symbol := ⟨"y"⟩
    let a : Monomial := (ofSymbol ⟨"z"⟩).withExponent x 2
    let b : Monomial := (ofSymbol x).withExponent y 2
    let d : Monomial := one.withExponent y 3
    let c : Monomial := one.withExponent x 4294967293
    a.totalDegree < 2 ^ 64 ∧ (compareGraded a d).isLE = true ∧ compareGraded a one = .lt ∧
      ∃ m n, a.mul c = .ok m ∧ b.mul c = .ok n ∧ m.exponent x = 4294967295 ∧
        compareGraded a b = .lt ∧ compareGraded m n = .lt := by
  intro x y a b d c
  rcases graded_monomial_order with ⟨hdegree, -, htrans, -, -, -, hlast, hmul⟩
  have hok : ((a.mul c).toOption.map fun m => m.exponent x) = some 4294967295 := by decide +kernel
  have hok' : (b.mul c).isOk = true := by decide +kernel
  have hab : compareGraded a b = .lt := by decide +kernel
  rcases Outcome.exists_eq_ok_of_toOption_map hok with ⟨m, hm, hexponent⟩
  rcases Outcome.exists_eq_ok_of_isOk hok' with ⟨n, hn⟩
  exact ⟨hdegree a (by decide +kernel), htrans a b d (by decide +kernel) (by decide +kernel),
    hlast a (by decide +kernel), m, n, hm, hn, hexponent, hab, (hmul a b c m n hm hn).trans hab⟩

end Monomial

end SymbolicPoly
