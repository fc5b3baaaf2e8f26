import SymbolicPoly.Monomial.Order

/-!
# Monomial exponents — what each operation does to the exponent of a symbol

A monomial is determined by its exponents (`ext_exponent`). So each operation is described by one
equation for `exponent`:

* `exponent_one`, `exponent_withExponent`, `exponent_restrict` and `exponent_ofTable` for the
  constructions that always succeed;
* `mulPower_eq_ok_iff` and `mulPower_eq_error_iff` for the one step from which all products are
  made: it adds the exponents, and fails exactly if their sum is no word;
* `mulPowers_eq_ok_iff` and `mul_eq_ok_iff` for the products: all exponents are added, and the
  product exists exactly if every sum is a word.
-/

namespace SymbolicPoly

namespace Monomial

/-! ## Factors and exponents -/

theorem lookup_cons (f : Symbol × UInt32) (fs : List (Symbol × UInt32)) (s : Symbol) :
    (f :: fs).lookup s = if s = f.1 then some f.2 else fs.lookup s := by
  cases f with
  | mk t e =>
      by_cases hs : s = t
      · simp [hs]
      · simp [List.lookup_cons, beq_false_of_ne hs, hs]

/-- In a list sorted by symbol, looking a symbol up finds its only entry. -/
theorem lookup_eq_some_iff {fs : List (Symbol × UInt32)} {s : Symbol} {e : UInt32}
    (h : fs.Pairwise (fun f g => compare f.1 g.1 = .lt)) :
    fs.lookup s = some e ↔ (s, e) ∈ fs := by
  induction fs with
  | nil =>
      simp
  | cons f fs ih =>
      have hrest := ih (List.pairwise_cons.1 h).2
      by_cases hs : s = f.1
      · -- The entry at the head is the only one of its symbol.
        have hnot : (s, e) ∉ fs := by
          intro hmem
          have hlt := (List.pairwise_cons.1 h).1 _ hmem
          simp [hs, Std.ReflCmp.compare_self] at hlt
        subst hs
        simp [lookup_cons, hnot, Prod.ext_iff, eq_comm]
      · simp [lookup_cons, hrest, Prod.ext_iff, hs]

/-- The factors are the symbols whose exponent is not zero. -/
theorem mem_factors_iff {m : Monomial} {s : Symbol} {e : UInt32} :
    (s, e) ∈ m.factors ↔ m.exponent s = e ∧ e ≠ 0 := by
  constructor
  · intro h
    have hlookup := (lookup_eq_some_iff m.sorted).2 h
    exact ⟨by simp [exponent, hlookup], m.positive _ h⟩
  · rintro ⟨h, he⟩
    cases hlookup : m.factors.lookup s with
    | none =>
        exact absurd (by simpa [exponent, hlookup] using h.symm) he
    | some d =>
        have hd : d = e := by simpa [exponent, hlookup] using h
        exact hd ▸ (lookup_eq_some_iff m.sorted).1 hlookup

/-- A sorted list has no factor twice. -/
theorem nodup_of_sorted {fs : List (Symbol × UInt32)}
    (h : fs.Pairwise (fun f g => compare f.1 g.1 = .lt)) : fs.Nodup := by
  refine h.imp ?_
  rintro f _ hlt rfl
  simp [Std.ReflCmp.compare_self] at hlt

/-- Monomials with the same exponents are equal. -/
theorem ext_exponent {a b : Monomial} (h : ∀ s, a.exponent s = b.exponent s) : a = b := by
  have hperm : a.factors.Perm b.factors := by
    refine (List.perm_ext_iff_of_nodup (nodup_of_sorted a.sorted) (nodup_of_sorted b.sorted)).2 ?_
    rintro ⟨s, e⟩
    rw [mem_factors_iff, mem_factors_iff, h s]
  refine ext_factors (List.Perm.eq_of_pairwise ?_ a.sorted b.sorted hperm)
  intro f g _ _ hfg hgf
  exact absurd hgf (Std.OrientedCmp.not_lt_of_lt hfg)

/-- An exponent is `e` if the pair is a factor, or if `e` is zero and no factor has the symbol. -/
theorem exponent_eq_iff {m : Monomial} {s : Symbol} {e : UInt32} :
    m.exponent s = e ↔ (s, e) ∈ m.factors ∨ (e = 0 ∧ ∀ d, (s, d) ∉ m.factors) := by
  constructor
  · intro h
    by_cases he : e = 0
    · refine .inr ⟨he, ?_⟩
      intro d hd
      obtain ⟨hd, hpos⟩ := mem_factors_iff.1 hd
      exact hpos (hd.symm.trans (h.trans he))
    · exact .inl (mem_factors_iff.2 ⟨h, he⟩)
  · rintro (h | ⟨rfl, h⟩)
    · exact (mem_factors_iff.1 h).1
    · by_cases hzero : m.exponent s = 0
      · exact hzero
      · exact absurd (mem_factors_iff.2 ⟨rfl, hzero⟩) (h _)

/-! ## Constructions -/

@[simp]
theorem exponent_one (s : Symbol) : one.exponent s = 0 :=
  rfl

theorem mem_placeFactor {fs : List (Symbol × UInt32)} {s : Symbol} {e : UInt32}
    {f : Symbol × UInt32} :
    f ∈ placeFactor s e fs ↔ (f = (s, e) ∧ e ≠ 0) ∨ (f ∈ fs ∧ f.1 ≠ s) := by
  -- Two symbols differ if one comes before the other.
  have hne : f.1 ≠ s ↔ compare f.1 s = .lt ∨ compare s f.1 = .lt := by
    rw [@Std.OrientedCmp.eq_swap _ compare _ s f.1, ne_eq,
      ← @Std.LawfulEqCmp.compare_eq_iff_eq _ compare _]
    cases compare f.1 s <;> simp
  rw [hne]
  by_cases he : e = 0
  · simp [placeFactor, he, and_or_left]
  · simp [placeFactor, he, and_or_left, or_left_comm]

@[simp]
theorem exponent_withExponent (m : Monomial) (s t : Symbol) (e : UInt32) :
    (m.withExponent s e).exponent t = if t = s then e else m.exponent t := by
  split
  · rename_i h
    subst h
    refine exponent_eq_iff.2 ?_
    by_cases he : e = 0
    · refine .inr ⟨he, ?_⟩
      simp [withExponent, mem_placeFactor, he]
    · exact .inl (mem_placeFactor.2 (.inl ⟨rfl, he⟩))
  · rename_i h
    refine exponent_eq_iff.2 ?_
    simpa [withExponent, mem_placeFactor, h] using exponent_eq_iff.1 (Eq.refl (m.exponent t))

@[simp]
theorem exponent_ofSymbol (s t : Symbol) : (ofSymbol s).exponent t = if t = s then 1 else 0 := by
  simp [ofSymbol]

@[simp]
theorem exponent_restrict (keep : Symbol → Bool) (m : Monomial) (s : Symbol) :
    (m.restrict keep).exponent s = if keep s then m.exponent s else 0 := by
  refine exponent_eq_iff.2 ?_
  by_cases h : keep s
  · simpa [restrict, h] using exponent_eq_iff.1 (Eq.refl (m.exponent s))
  · simp [restrict, h]

@[simp]
theorem exponent_ofTable (t : ExponentTable) (s : Symbol) :
    (ofTable t).exponent s = t[s]?.getD 0 := by
  refine exponent_eq_iff.2 ?_
  simp only [ofTable, List.mem_filter, Std.ExtTreeMap.mem_toList_iff_getElem?_eq_some]
  cases h : t[s]? with
  | none =>
      simp
  | some d =>
      by_cases hd : d = 0 <;> simp [hd]

/-! ## The step of a product -/

theorem addExponents?_eq_some_iff {d e sum : UInt32} :
    addExponents? d e = some sum ↔ d.toNat + e.toNat = sum.toNat := by
  unfold addExponents?
  split
  · rename_i h
    rw [Option.some.injEq, ← UInt32.toNat_inj, UInt32.toNat_add, Nat.mod_eq_of_lt h]
  · rename_i h
    have hsum := sum.toNat_lt_size
    simp only [reduceCtorEq, false_iff]
    omega

theorem addExponents?_eq_none_iff {d e : UInt32} :
    addExponents? d e = none ↔ UInt32.size ≤ d.toNat + e.toNat := by
  simp [addExponents?]

/-- Multiplying by a power adds to one exponent and leaves the others. -/
theorem mulPower_eq_ok_iff {m n : Monomial} {s : Symbol} {e : UInt32} :
    m.mulPower s e = .ok n ↔
      ∀ t, (n.exponent t).toNat = (m.exponent t).toNat + if t = s then e.toNat else 0 := by
  constructor
  · intro h t
    unfold mulPower at h
    split at h
    · rename_i sum hsum
      cases h
      by_cases ht : t = s
      · simp [ht, addExponents?_eq_some_iff.1 hsum]
      · simp [ht]
    · cases h
  · intro h
    -- The exponent that `n` has at `s` is the sum.
    have hsum : addExponents? (m.exponent s) e = some (n.exponent s) :=
      addExponents?_eq_some_iff.2 (by simpa using (h s).symm)
    have hn : m.withExponent s (n.exponent s) = n := by
      refine ext_exponent fun t => ?_
      by_cases ht : t = s
      · simp [ht]
      · have hexp : (n.exponent t).toNat = (m.exponent t).toNat := by simpa [ht] using h t
        simp [ht, UInt32.toNat_inj.1 hexp]
    simp [mulPower, hsum, hn]

/-- Multiplying by a power fails exactly if the sum of the exponents is no word, and the failure
tells both of them. -/
theorem mulPower_eq_error_iff {m : Monomial} {s : Symbol} {e : UInt32} {x : ExponentOverflow} :
    m.mulPower s e = .error x ↔
      UInt32.size ≤ (m.exponent s).toNat + e.toNat ∧ x = ⟨s, m.exponent s, e⟩ := by
  unfold mulPower
  rw [← addExponents?_eq_none_iff]
  cases addExponents? (m.exponent s) e with
  | none =>
      simp [eq_comm]
  | some sum =>
      simp

/-! ## Products -/

/-- The sum of the exponents that a list of factors gives to `s`. -/
def listedExponent (fs : List (Symbol × UInt32)) (s : Symbol) : Nat :=
  fs.foldr (fun f sum => (if f.1 = s then f.2.toNat else 0) + sum) 0

@[simp]
theorem listedExponent_nil (s : Symbol) : listedExponent [] s = 0 :=
  rfl

@[simp]
theorem listedExponent_cons (f : Symbol × UInt32) (fs : List (Symbol × UInt32)) (s : Symbol) :
    listedExponent (f :: fs) s = (if f.1 = s then f.2.toNat else 0) + listedExponent fs s :=
  rfl

theorem listedExponent_of_sorted {fs : List (Symbol × UInt32)} (s : Symbol)
    (h : fs.Pairwise (fun f g => compare f.1 g.1 = .lt)) :
    listedExponent fs s = ((fs.lookup s).getD 0).toNat := by
  induction fs with
  | nil =>
      rfl
  | cons f fs ih =>
      have hrest := ih (List.pairwise_cons.1 h).2
      by_cases hs : f.1 = s
      · -- No later entry has the symbol of the head.
        have hnone : fs.lookup s = none := by
          refine Option.eq_none_iff_forall_ne_some.2 fun e he => ?_
          have hmem := (lookup_eq_some_iff (List.pairwise_cons.1 h).2).1 he
          have hlt := (List.pairwise_cons.1 h).1 _ hmem
          simp [hs, Std.ReflCmp.compare_self] at hlt
        have hzero : listedExponent fs s = 0 := by simp [hrest, hnone]
        subst hs
        simp [lookup_cons, hzero]
      · simp [lookup_cons, Ne.symm hs, hs, hrest]

/-- The list of the factors gives each symbol its exponent. -/
theorem listedExponent_factors (m : Monomial) (s : Symbol) :
    listedExponent m.factors s = (m.exponent s).toNat :=
  listedExponent_of_sorted s m.sorted

/-- Multiplying by the factors of a list adds all their exponents. -/
theorem mulPowers_eq_ok_iff {m n : Monomial} {fs : List (Symbol × UInt32)} :
    m.mulPowers fs = .ok n ↔
      ∀ s, (n.exponent s).toNat = (m.exponent s).toNat + listedExponent fs s := by
  induction fs generalizing m with
  | nil =>
      constructor
      · intro h s
        cases h
        simp
      · intro h
        have hn : m = n := by
          refine ext_exponent fun s => UInt32.toNat_inj.1 ?_
          simpa using (h s).symm
        exact congrArg Except.ok hn
  | cons f fs ih =>
      have hstep : m.mulPowers (f :: fs) = (m.mulPower f.1 f.2).bind fun k => k.mulPowers fs :=
        rfl
      rw [hstep]
      cases hf : m.mulPower f.1 f.2 with
      | error x =>
          -- The sum at the head's symbol is no word, and the later factors only add to it.
          have hsize := (mulPower_eq_error_iff.1 hf).1
          constructor
          · intro h
            cases h
          · intro h
            have hsum := h f.1
            have hn := (n.exponent f.1).toNat_lt_size
            simp only [listedExponent_cons, if_true] at hsum
            omega
      | ok k =>
          have hk := mulPower_eq_ok_iff.1 hf
          show k.mulPowers fs = .ok n ↔ _
          rw [ih]
          refine forall_congr' fun s => ?_
          rw [hk s, listedExponent_cons, Nat.add_assoc]
          simp only [eq_comm (a := s)]

/-- Multiplication adds the exponents, and succeeds exactly if all sums are words. -/
theorem mul_eq_ok_iff {a b n : Monomial} :
    a.mul b = .ok n ↔
      ∀ s, (n.exponent s).toNat = (a.exponent s).toNat + (b.exponent s).toNat := by
  unfold mul
  split
  · simp [mulPowers_eq_ok_iff, listedExponent_factors]
  · simp [mulPowers_eq_ok_iff, listedExponent_factors, Nat.add_comm]

end Monomial

end SymbolicPoly
