import Mathlib.Algebra.BigOperators.Finsupp.Basic
import SymbolicPoly.Monomial.Exponent

/-!
# Monomials as exponent functions

`Monomial.toFinsupp` reads a monomial as a finitely supported function from symbols to natural
numbers, the form in which Mathlib keeps the exponents of a multivariate polynomial. Distinct
monomials have distinct functions, and a function comes from a monomial exactly if its values are
words (`exists_toFinsupp_eq_iff`).

A product of monomials that exists is the sum of the functions (`mul_eq_ok_iff_toFinsupp`), and it
exists exactly if the values of the sum are words (`exists_mul_eq_ok_iff`).
-/

namespace SymbolicPoly

namespace Monomial

theorem exponent_of_mem {m : Monomial} {f : Symbol × UInt32} (hf : f ∈ m.factors) :
    m.exponent f.1 = f.2 :=
  (mem_factors_iff.1 (show (f.1, f.2) ∈ m.factors from hf)).1

theorem mem_vars_of_mem {m : Monomial} {f : Symbol × UInt32} (hf : f ∈ m.factors) :
    f.1 ∈ m.vars :=
  List.mem_map.2 ⟨f, hf, rfl⟩

theorem mem_vars_iff {m : Monomial} {s : Symbol} : s ∈ m.vars ↔ m.exponent s ≠ 0 := by
  constructor
  · intro h
    rcases List.mem_map.1 h with ⟨f, hf, rfl⟩
    rw [exponent_of_mem hf]
    exact m.positive f hf
  · intro h
    exact List.mem_map.2 ⟨(s, m.exponent s), mem_factors_iff.2 ⟨rfl, h⟩, rfl⟩

theorem nodup_vars (m : Monomial) : m.vars.Nodup := by
  refine List.pairwise_map.2 (m.sorted.imp ?_)
  intro f g hlt heq
  simp [heq, Std.ReflCmp.compare_self] at hlt

def toFinsupp (m : Monomial) : Symbol →₀ Nat where
  support := m.vars.toFinset
  toFun s := (m.exponent s).toNat
  mem_support_toFun s := by
    have hzero : (m.exponent s).toNat = 0 ↔ m.exponent s = 0 := UInt32.toNat_inj (b := 0)
    simp [mem_vars_iff, hzero]

@[simp]
theorem toFinsupp_apply (m : Monomial) (s : Symbol) : m.toFinsupp s = (m.exponent s).toNat :=
  rfl

theorem toFinsupp_injective : Function.Injective toFinsupp := by
  intro a b h
  refine ext_exponent fun s => UInt32.toNat_inj.1 ?_
  exact DFunLike.congr_fun h s

@[simp]
theorem toFinsupp_inj {a b : Monomial} : a.toFinsupp = b.toFinsupp ↔ a = b :=
  toFinsupp_injective.eq_iff

@[simp]
theorem toFinsupp_one : one.toFinsupp = 0 := by
  ext s
  simp

@[simp]
theorem toFinsupp_ofSymbol (s : Symbol) : (ofSymbol s).toFinsupp = Finsupp.single s 1 := by
  ext t
  by_cases h : t = s
  · simp [h]
  · simp [h]

theorem exists_toFinsupp_eq_iff {d : Symbol →₀ Nat} :
    (∃ m : Monomial, m.toFinsupp = d) ↔ ∀ s, d s < UInt32.size := by
  constructor
  · rintro ⟨m, rfl⟩ s
    exact (m.exponent s).toNat_lt_size
  · intro h
    induction d using Finsupp.induction with
    | zero =>
        exact ⟨one, toFinsupp_one⟩
    | single_add s e d hs he ih =>
        -- The symbol is new to `d`, so its exponent is `e` and not a sum.
        have hd : ∀ t, d t < UInt32.size := by
          intro t
          exact Nat.lt_of_le_of_lt (Nat.le_add_left _ _) (h t)
        rcases ih hd with ⟨m, rfl⟩
        have hsmall : e < UInt32.size := by
          have hsum := h s
          simp only [Finsupp.add_apply, Finsupp.single_eq_same] at hsum
          omega
        refine ⟨m.withExponent s (.ofNatLT e hsmall), ?_⟩
        ext t
        by_cases ht : t = s
        · have hzero : (m.exponent s).toNat = 0 := Finsupp.notMem_support_iff.1 hs
          simp [ht, hzero]
        · simp [ht]

/-! ## Products -/

theorem mul_eq_ok_iff_toFinsupp {a b n : Monomial} :
    a.mul b = .ok n ↔ n.toFinsupp = a.toFinsupp + b.toFinsupp := by
  simp [mul_eq_ok_iff, Finsupp.ext_iff]

theorem exists_mul_eq_ok_iff {a b : Monomial} :
    (∃ n, a.mul b = .ok n) ↔ ∀ s, (a.exponent s).toNat + (b.exponent s).toNat < UInt32.size := by
  simpa [mul_eq_ok_iff_toFinsupp] using exists_toFinsupp_eq_iff (d := a.toFinsupp + b.toFinsupp)

theorem mulSymbol_eq_ok_iff_toFinsupp {m n : Monomial} {s : Symbol} :
    m.mulSymbol s = .ok n ↔ n.toFinsupp = m.toFinsupp + Finsupp.single s 1 := by
  have hstep : m.mulSymbol s = .ok n ↔ _ := mulPower_eq_ok_iff
  simp [hstep, Finsupp.ext_iff, Finsupp.single_apply, eq_comm (a := s)]

/-! ## Products over the factors -/

theorem prod_toFinsupp {M : Type*} [CommMonoid M] (m : Monomial) (h : Symbol → Nat → M) :
    m.toFinsupp.prod h = (m.factors.map fun f => h f.1 f.2.toNat).prod := by
  -- The support lists each symbol once, as the factors do.
  have hvars : m.toFinsupp.prod h = (m.vars.map fun s => h s (m.exponent s).toNat).prod :=
    (List.prod_toFinset _ m.nodup_vars)
  rw [hvars, vars, List.map_map]
  congr 1
  refine List.map_congr_left ?_
  intro f hf
  simp [exponent_of_mem hf]

end Monomial

end SymbolicPoly
