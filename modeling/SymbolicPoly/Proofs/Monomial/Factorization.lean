import Mathlib.Algebra.BigOperators.Group.Finset.Basic
import Mathlib.Data.Finsupp.Antidiagonal
import Mathlib.Data.List.Nodup
import SymbolicPoly.Proofs.Monomial.Finsupp

/-!
# Factorization — the ways to write a monomial as a product of two

`Monomial.factorizations` lists all pairs of monomials with a given product, each pair once
(`mem_factorizations_iff`, `nodup_factorizations`). A coefficient of a product of polynomials is a
sum over this list.
-/

namespace SymbolicPoly

namespace Monomial

/-- Splits the exponent of each factor into two parts, in all ways. -/
def splitFactors : List (Symbol × UInt32) → List (Monomial × Monomial)
  | [] => [(one, one)]
  | f :: fs =>
      (List.range (f.2.toNat + 1)).flatMap fun d =>
        (splitFactors fs).map fun t =>
          (t.1.withExponent f.1 (.ofNat d), t.2.withExponent f.1 (.ofNat (f.2.toNat - d)))

/-- The pairs of monomials whose product is `m`. -/
def factorizations (m : Monomial) : List (Monomial × Monomial) :=
  splitFactors m.factors

/-! ## Exponents -/

theorem listedExponent_eq_zero {fs : List (Symbol × UInt32)} {s : Symbol}
    (h : ∀ f ∈ fs, f.1 ≠ s) : listedExponent fs s = 0 := by
  induction fs with
  | nil =>
      rfl
  | cons f fs ih =>
      have hcons := List.forall_mem_cons.1 h
      simp [hcons.1, ih hcons.2]

/-- A symbol does not occur again behind its factor. -/
theorem listedExponent_tail {f : Symbol × UInt32} {fs : List (Symbol × UInt32)}
    (h : (f :: fs).Pairwise (fun f g => compare f.1 g.1 = .lt)) : listedExponent fs f.1 = 0 := by
  refine listedExponent_eq_zero ?_
  intro g hg heq
  have hlt := (List.pairwise_cons.1 h).1 g hg
  simp [heq, Std.ReflCmp.compare_self] at hlt

theorem toNat_ofNat_of_le {d : Nat} {e : UInt32} (h : d ≤ e.toNat) :
    (UInt32.ofNat d).toNat = d :=
  UInt32.toNat_ofNat_of_lt (Nat.lt_of_le_of_lt h e.toNat_lt_size)

theorem exponent_eq_zero_of_add_eq_zero {a b : Monomial} {s : Symbol}
    (h : (a.exponent s).toNat + (b.exponent s).toNat = 0) :
    a.exponent s = 0 ∧ b.exponent s = 0 := by
  have hboth := Nat.add_eq_zero_iff.1 h
  exact ⟨UInt32.toNat_inj.1 hboth.1, UInt32.toNat_inj.1 hboth.2⟩

/-- Two parts of the exponent `e` add up to it, and other exponents are not touched. -/
theorem toNat_exponent_parts (a b : Monomial) (s : Symbol) {e : UInt32} {d : Nat}
    (hd : d ≤ e.toNat) (v : Symbol) :
    ((a.withExponent s (.ofNat d)).exponent v).toNat +
        ((b.withExponent s (.ofNat (e.toNat - d))).exponent v).toNat =
      if v = s then e.toNat else (a.exponent v).toNat + (b.exponent v).toNat := by
  have hrest : e.toNat - d ≤ e.toNat := Nat.sub_le _ _
  by_cases hv : v = s
  · simp [hv, toNat_ofNat_of_le hd, toNat_ofNat_of_le hrest, Nat.add_sub_cancel' hd]
  · simp [hv]

/-- Taking the exponent of a symbol away and putting it back. -/
theorem withExponent_withExponent_zero (m : Monomial) (s : Symbol) {d : Nat}
    (hd : (m.exponent s).toNat = d) : (m.withExponent s 0).withExponent s (.ofNat d) = m := by
  refine ext_exponent fun v => ?_
  by_cases hv : v = s
  · simp [hv, ← hd]
  · simp [hv]

theorem withExponent_inj_of_exponent_eq_zero {a b : Monomial} {s : Symbol} {e : UInt32}
    (ha : a.exponent s = 0) (hb : b.exponent s = 0)
    (h : a.withExponent s e = b.withExponent s e) : a = b := by
  refine ext_exponent fun v => ?_
  by_cases hv : v = s
  · simp [hv, ha, hb]
  · have hexp := congrArg (fun m => exponent m v) h
    simpa [hv] using hexp

/-! ## The list of splittings -/

/-- The two exponents of each symbol add up to the listed one. -/
theorem mem_splitFactors_iff {fs : List (Symbol × UInt32)}
    (h : fs.Pairwise (fun f g => compare f.1 g.1 = .lt)) {t : Monomial × Monomial} :
    t ∈ splitFactors fs ↔
      ∀ s, (t.1.exponent s).toNat + (t.2.exponent s).toNat = listedExponent fs s := by
  induction fs generalizing t with
  | nil =>
      constructor
      · intro ht s
        have hone : t = (one, one) := List.mem_singleton.1 ht
        simp [hone]
      · intro hsum
        have hzero : ∀ s, t.1.exponent s = 0 ∧ t.2.exponent s = 0 :=
          fun s => exponent_eq_zero_of_add_eq_zero (hsum s)
        refine List.mem_singleton.2 (Prod.ext ?_ ?_)
        · exact ext_exponent fun s => (hzero s).1
        · exact ext_exponent fun s => (hzero s).2
  | cons f fs ih =>
      have hrest := (List.pairwise_cons.1 h).2
      have htail := listedExponent_tail h
      simp only [splitFactors, List.mem_flatMap, List.mem_range, List.mem_map]
      constructor
      · rintro ⟨d, hd, u, hu, rfl⟩ s
        apply (toNat_exponent_parts u.1 u.2 f.1 (Nat.lt_succ_iff.1 hd) s).trans
        by_cases hs : s = f.1
        · simp [hs, htail]
        · simpa [hs, Ne.symm hs] using (ih hrest).1 hu s
      · intro hsum
        have hhead : (t.1.exponent f.1).toNat + (t.2.exponent f.1).toNat = f.2.toNat := by
          simpa [htail] using hsum f.1
        have hle : (t.1.exponent f.1).toNat ≤ f.2.toNat := hhead ▸ Nat.le_add_right _ _
        -- Without the symbol of the head, `t` is a splitting of the other factors.
        have hmem : (t.1.withExponent f.1 0, t.2.withExponent f.1 0) ∈ splitFactors fs := by
          refine (ih hrest).2 fun s => ?_
          by_cases hs : s = f.1
          · simp [hs, htail]
          · simpa [hs, Ne.symm hs] using hsum s
        refine ⟨_, Nat.lt_succ_iff.2 hle, _, hmem, Prod.ext ?_ ?_⟩
        · exact withExponent_withExponent_zero t.1 f.1 rfl
        · exact withExponent_withExponent_zero t.2 f.1 (Nat.eq_sub_of_add_eq' hhead)

/-- A splitting of the factors behind a symbol does not mention that symbol. -/
theorem exponent_eq_zero_of_mem_splitFactors {f : Symbol × UInt32} {fs : List (Symbol × UInt32)}
    (h : (f :: fs).Pairwise (fun f g => compare f.1 g.1 = .lt)) {t : Monomial × Monomial}
    (ht : t ∈ splitFactors fs) : t.1.exponent f.1 = 0 ∧ t.2.exponent f.1 = 0 := by
  apply exponent_eq_zero_of_add_eq_zero
  calc
    (t.1.exponent f.1).toNat + (t.2.exponent f.1).toNat
        = listedExponent fs f.1 := (mem_splitFactors_iff (List.pairwise_cons.1 h).2).1 ht f.1
    _ = 0 := listedExponent_tail h

theorem nodup_splitFactors {fs : List (Symbol × UInt32)}
    (h : fs.Pairwise (fun f g => compare f.1 g.1 = .lt)) : (splitFactors fs).Nodup := by
  induction fs with
  | nil =>
      exact List.nodup_singleton _
  | cons f fs ih =>
      have hzero : ∀ t ∈ splitFactors fs, t.1.exponent f.1 = 0 ∧ t.2.exponent f.1 = 0 :=
        fun t => exponent_eq_zero_of_mem_splitFactors h
      refine List.nodup_flatMap.2 ⟨?_, ?_⟩
      · -- With one part of the exponent of the head fixed, the other factors tell splittings apart.
        intro d _
        refine (ih (List.pairwise_cons.1 h).2).map_on ?_
        intro t ht u hu htu
        have hpair := Prod.ext_iff.1 htu
        refine Prod.ext ?_ ?_
        · exact withExponent_inj_of_exponent_eq_zero (hzero t ht).1 (hzero u hu).1 hpair.1
        · exact withExponent_inj_of_exponent_eq_zero (hzero t ht).2 (hzero u hu).2 hpair.2
      · -- Different parts of it are different exponents of the head in the first monomial.
        refine List.nodup_range.imp_of_mem ?_
        intro d d' hd hd' hne
        refine List.disjoint_left.2 ?_
        intro t ht ht'
        rcases List.mem_map.1 ht with ⟨u, -, rfl⟩
        rcases List.mem_map.1 ht' with ⟨u', -, heq⟩
        have hexp := congrArg (fun t => (exponent t.1 f.1).toNat) heq
        have hle : d ≤ f.2.toNat := Nat.lt_succ_iff.1 (List.mem_range.1 hd)
        have hle' : d' ≤ f.2.toNat := Nat.lt_succ_iff.1 (List.mem_range.1 hd')
        simp only [exponent_withExponent, if_true, toNat_ofNat_of_le hle,
          toNat_ofNat_of_le hle'] at hexp
        exact hne hexp.symm

/-! ## The factorizations of a monomial -/

theorem mem_factorizations_iff {m : Monomial} {t : Monomial × Monomial} :
    t ∈ m.factorizations ↔ t.1.mul t.2 = .ok m := by
  rw [factorizations, mem_splitFactors_iff m.sorted, mul_eq_ok_iff]
  simp only [listedExponent_factors, eq_comm]

theorem nodup_factorizations (m : Monomial) : m.factorizations.Nodup :=
  nodup_splitFactors m.sorted

/-- Exponents that add up to those of a monomial are exponents of monomials. -/
theorem sum_antidiagonal_toFinsupp {M : Type*} [AddCommMonoid M] (m : Monomial)
    (g : (Symbol →₀ Nat) × (Symbol →₀ Nat) → M) :
    ∑ d ∈ Finset.HasAntidiagonal.antidiagonal m.toFinsupp, g d =
      (m.factorizations.map fun t => g (t.1.toFinsupp, t.2.toFinsupp)).sum := by
  have hinjective : Function.Injective (Prod.map toFinsupp toFinsupp) :=
    toFinsupp_injective.prodMap toFinsupp_injective
  have hset : Finset.HasAntidiagonal.antidiagonal m.toFinsupp =
      (m.factorizations.map (Prod.map toFinsupp toFinsupp)).toFinset := by
    ext d
    rw [Finset.HasAntidiagonal.mem_antidiagonal, List.mem_toFinset, List.mem_map]
    constructor
    · intro hd
      -- The parts of an exponent are no larger than it, so both are words again.
      have hle : ∀ s, d.1 s < UInt32.size ∧ d.2 s < UInt32.size := by
        intro s
        have hsum : d.1 s + d.2 s = (m.exponent s).toNat := DFunLike.congr_fun hd s
        have hsize := (m.exponent s).toNat_lt_size
        omega
      rcases exists_toFinsupp_eq_iff.2 fun s => (hle s).1 with ⟨a, ha⟩
      rcases exists_toFinsupp_eq_iff.2 fun s => (hle s).2 with ⟨b, hb⟩
      refine ⟨(a, b), mem_factorizations_iff.2 ?_, Prod.ext ha hb⟩
      rw [mul_eq_ok_iff_toFinsupp, ha, hb, hd]
    · rintro ⟨t, ht, rfl⟩
      exact (mul_eq_ok_iff_toFinsupp.1 (mem_factorizations_iff.1 ht)).symm
  rw [hset, List.sum_toFinset _ (m.nodup_factorizations.map hinjective), List.map_map]
  rfl

end Monomial

end SymbolicPoly
