import SymbolicPoly.Proofs.Monomial.Graded
import SymbolicPoly.Proofs.Outcome

/-!
# Product — multiplication of monomials as a partial operation

A product exists exactly if all sums of exponents are words. It is commutative, and both ways to
bracket three factors succeed together and with the same result (`bind_mul_eq_ok_iff`). A list of
factors may be given in any order.

If a product does not exist, the overflow that is reported is the one at the first symbol, although
only the factors of the smaller monomial are gone through (`mul_eq_error_iff`). Symbols that it does
not have cannot overflow.
-/

namespace SymbolicPoly

/-- The report is about the first symbol whose two exponents add up to more than the largest one, and
holds both of them. -/
structure ExponentOverflow.Reports (x : ExponentOverflow) (current added : Symbol → UInt32) :
    Prop where
  overflows : 4294967295 < (current x.symbol).toNat + (added x.symbol).toNat
  first : ∀ s < x.symbol, (current s).toNat + (added s).toNat ≤ 4294967295
  current_eq : x.current = current x.symbol
  added_eq : x.added = added x.symbol

/-- There is one first symbol at most. -/
theorem ExponentOverflow.Reports.unique {x y : ExponentOverflow} {current added : Symbol → UInt32}
    (hx : x.Reports current added) (hy : y.Reports current added) : x = y := by
  have hnot : ∀ {x y : ExponentOverflow}, x.Reports current added → y.Reports current added →
      ¬ x.symbol < y.symbol :=
    fun hx hy hlt => absurd hx.overflows (not_lt.2 (hy.first _ hlt))
  have hsymbol : x.symbol = y.symbol := le_antisymm (not_lt.1 (hnot hy hx)) (not_lt.1 (hnot hx hy))
  have hcurrent : x.current = y.current := by rw [hx.current_eq, hy.current_eq, hsymbol]
  have hadded : x.added = y.added := by rw [hx.added_eq, hy.added_eq, hsymbol]
  cases x
  cases y
  cases hsymbol
  cases hcurrent
  cases hadded
  rfl

namespace Monomial

/-! ## Lists of factors -/

theorem mulPowers_cons (m : Monomial) (f : Symbol × UInt32) (fs : List (Symbol × UInt32)) :
    m.mulPowers (f :: fs) = (m.mulPower f.1 f.2).bind fun k => k.mulPowers fs :=
  rfl

theorem exists_mulPowers_eq_ok_iff {m : Monomial} {fs : List (Symbol × UInt32)} :
    (∃ n, m.mulPowers fs = .ok n) ↔
      ∀ s, (m.exponent s).toNat + listedExponent fs s ≤ 4294967295 := by
  constructor
  · rintro ⟨n, hn⟩ s
    rw [← mulPowers_eq_ok_iff.1 hn s]
    exact Nat.le_of_lt_succ (n.exponent s).toNat_lt
  · intro h
    induction fs generalizing m with
    | nil =>
        exact ⟨m, rfl⟩
    | cons f fs ih =>
        rw [mulPowers_cons]
        cases hf : m.mulPower f.1 f.2 with
        | error x =>
            -- The sum at the head's symbol is too large already.
            have hlarge : 4294967295 < (m.exponent f.1).toNat + f.2.toNat :=
              (mulPower_eq_error_iff.1 hf).1
            have hsum := h f.1
            simp only [listedExponent_cons, if_true] at hsum
            omega
        | ok k =>
            refine ih fun s => ?_
            have hsum := h s
            rw [listedExponent_cons, ← Nat.add_assoc] at hsum
            rwa [mulPower_eq_ok_iff.1 hf s, if_congr eq_comm rfl rfl]

theorem listedExponent_perm {fs gs : List (Symbol × UInt32)} (h : fs.Perm gs) (s : Symbol) :
    listedExponent fs s = listedExponent gs s := by
  induction h with
  | nil =>
      rfl
  | cons f _ ih =>
      rw [listedExponent_cons, listedExponent_cons, ih]
  | swap f g fs =>
      simp only [listedExponent_cons]
      exact Nat.add_left_comm _ _ _
  | trans _ _ ih ih' =>
      exact ih.trans ih'

/-- A list of factors is multiplied by adding the exponents of each symbol. -/
theorem ofFactors_eq_ok_iff {fs : List (Symbol × UInt32)} {m : Monomial} :
    ofFactors fs = .ok m ↔ ∀ s, (m.exponent s).toNat = listedExponent fs s := by
  have hpowers : one.mulPowers fs = .ok m ↔
      ∀ s, (m.exponent s).toNat = (one.exponent s).toNat + listedExponent fs s :=
    mulPowers_eq_ok_iff
  simpa [ofFactors] using hpowers

theorem exists_ofFactors_eq_ok_iff {fs : List (Symbol × UInt32)} :
    (∃ m, ofFactors fs = .ok m) ↔ ∀ s, listedExponent fs s ≤ 4294967295 := by
  have hpowers : (∃ m, one.mulPowers fs = .ok m) ↔
      ∀ s, (one.exponent s).toNat + listedExponent fs s ≤ 4294967295 :=
    exists_mulPowers_eq_ok_iff
  simpa [ofFactors] using hpowers

theorem ofFactors_perm {fs gs : List (Symbol × UInt32)} (h : fs.Perm gs) (m : Monomial) :
    ofFactors fs = .ok m ↔ ofFactors gs = .ok m := by
  simp only [ofFactors_eq_ok_iff, listedExponent_perm h]

/-! ## Reports -/

/-- In a sorted list each symbol occurs once, so what is reported is an exponent of `m` and one of the
list. -/
theorem reports_of_mulPowers_eq_error {m : Monomial} {fs : List (Symbol × UInt32)}
    {x : ExponentOverflow} (hfs : fs.Pairwise (fun f g => compare f.1 g.1 = .lt))
    (h : m.mulPowers fs = .error x) : x.Reports m.exponent fun s => (fs.lookup s).getD 0 := by
  induction fs generalizing m with
  | nil =>
      cases h
  | cons f fs ih =>
      have hrest := (List.pairwise_cons.1 hfs).2
      have hhead : ((f :: fs).lookup f.1).getD 0 = f.2 := by simp [lookup_cons]
      rw [mulPowers_cons] at h
      cases hf : m.mulPower f.1 f.2 with
      | error y =>
          rw [hf] at h
          cases h
          rcases mulPower_eq_error_iff.1 hf with ⟨hlarge, rfl⟩
          refine ⟨?_, ?_, rfl, hhead.symm⟩
          · rw [hhead]
            exact hlarge
          · -- Symbols before the first one of the list do not occur in it.
            intro s hs
            have hzero : (((f :: fs).lookup s).getD 0).toNat = 0 := by
              rw [← listedExponent_of_sorted s hfs, listedExponent_of_lt hfs hs]
            have hword := (m.exponent s).toNat_lt
            omega
      | ok k =>
          rw [hf] at h
          have hk := mulPower_eq_ok_iff.1 hf
          have hreports := ih (m := k) hrest h
          have htail : ((fs.lookup f.1).getD 0).toNat = 0 := by
            rw [← listedExponent_of_sorted f.1 hrest, listedExponent_tail hfs]
          -- The step has moved the exponent of the head from the list to the monomial.
          have hsum : ∀ s, (m.exponent s).toNat + (((f :: fs).lookup s).getD 0).toNat =
              (k.exponent s).toNat + ((fs.lookup s).getD 0).toNat := by
            intro s
            rw [hk s]
            by_cases hs : s = f.1
            · simp [hs, lookup_cons, htail]
            · simp [hs, lookup_cons]
          have hne : x.symbol ≠ f.1 := by
            intro heq
            have hlarge := hreports.overflows
            have hword := (k.exponent f.1).toNat_lt
            rw [heq, htail] at hlarge
            omega
          have hcurrent : k.exponent x.symbol = m.exponent x.symbol := by
            refine UInt32.toNat_inj.1 ?_
            simpa [hne] using hk x.symbol
          refine ⟨?_, ?_, hreports.current_eq.trans hcurrent, ?_⟩
          · rw [hsum]
            exact hreports.overflows
          · intro s hs
            rw [hsum]
            exact hreports.first s hs
          · simpa [lookup_cons, hne] using hreports.added_eq

/-- A report is made about the larger factor, the left one of two that are equally large, and adds the
exponent of the other one. -/
theorem mul_eq_error_iff {a b : Monomial} {x : ExponentOverflow} :
    a.mul b = .error x ↔
      if a.size < b.size then x.Reports b.exponent a.exponent
      else x.Reports a.exponent b.exponent := by
  have hpowers : ∀ {a b : Monomial} {x : ExponentOverflow}, a.mulPowers b.factors = .error x ↔
      x.Reports a.exponent b.exponent := by
    intro a b x
    refine ⟨reports_of_mulPowers_eq_error b.sorted, fun hx => ?_⟩
    cases hab : a.mulPowers b.factors with
    | error y =>
        exact congrArg Except.error ((reports_of_mulPowers_eq_error b.sorted hab).unique hx)
    | ok n =>
        have hsmall := exists_mulPowers_eq_ok_iff.1 ⟨n, hab⟩ x.symbol
        rw [listedExponent_factors] at hsmall
        exact absurd hx.overflows (not_lt.2 hsmall)
  unfold mul
  by_cases hsize : a.size < b.size
  · rw [if_pos hsize, if_neg (not_le.2 hsize), hpowers]
  · rw [if_neg hsize, if_pos (not_lt.1 hsize), hpowers]

/-! ## Symbols -/

theorem mul_ofSymbol_eq_ok_iff {m n : Monomial} {s : Symbol} :
    m.mul (ofSymbol s) = .ok n ↔ m.mulSymbol s = .ok n := by
  simp [mul_eq_ok_iff_toFinsupp, mulSymbol_eq_ok_iff_toFinsupp]

/-- The exponents of a product of two symbols are at most two. -/
theorem exists_ofSymbol_mulSymbol (s t : Symbol) : ∃ n, (ofSymbol s).mulSymbol t = .ok n := by
  have hone : ∀ a b : Symbol, ((ofSymbol a).exponent b).toNat ≤ 1 := by
    intro a b
    rw [exponent_ofSymbol]
    split
    · exact Nat.le_refl 1
    · exact Nat.zero_le 1
  have hproduct : ∃ n, (ofSymbol s).mul (ofSymbol t) = .ok n := by
    refine exists_mul_eq_ok_iff.2 fun v => ?_
    exact Nat.lt_of_le_of_lt (Nat.add_le_add (hone s v) (hone t v)) (by decide)
  simpa only [mul_ofSymbol_eq_ok_iff] using hproduct

/-! ## Laws -/

theorem mul_comm_eq_ok_iff {a b n : Monomial} : a.mul b = .ok n ↔ b.mul a = .ok n := by
  simp only [mul_eq_ok_iff, Nat.add_comm]

theorem exists_mul_comm {a b : Monomial} : (∃ n, a.mul b = .ok n) ↔ ∃ n, b.mul a = .ok n :=
  exists_congr fun _ => mul_comm_eq_ok_iff

theorem mul_one_eq_ok (m : Monomial) : m.mul one = .ok m := by
  simp [mul_eq_ok_iff_toFinsupp]

/-- A product of three factors exists as soon as its exponents are words: what is left out of a sum
makes it smaller. -/
theorem bind_mul_eq_ok_iff {a b c n : Monomial} :
    (a.mul b >>= fun k => k.mul c) = .ok n ↔
      n.toFinsupp = a.toFinsupp + b.toFinsupp + c.toFinsupp := by
  rw [Outcome.bind_eq_ok_iff]
  constructor
  · rintro ⟨k, hk, hn⟩
    rw [mul_eq_ok_iff_toFinsupp.1 hn, mul_eq_ok_iff_toFinsupp.1 hk]
  · intro hn
    have hwords : ∀ s, (a.toFinsupp + b.toFinsupp) s < UInt32.size := by
      intro s
      have hsum : (n.exponent s).toNat = (a.toFinsupp + b.toFinsupp) s + (c.exponent s).toNat :=
        DFunLike.congr_fun hn s
      have hword := (n.exponent s).toNat_lt_size
      omega
    rcases exists_toFinsupp_eq_iff.2 hwords with ⟨k, hk⟩
    refine ⟨k, mul_eq_ok_iff_toFinsupp.2 hk, mul_eq_ok_iff_toFinsupp.2 ?_⟩
    rw [hn, hk]

theorem mul_assoc_eq_ok_iff {a b c n : Monomial} :
    (a.mul b >>= fun k => k.mul c) = .ok n ↔ (b.mul c >>= fun k => a.mul k) = .ok n := by
  have hcomm : (b.mul c >>= fun k => a.mul k) = .ok n ↔ (b.mul c >>= fun k => k.mul a) = .ok n := by
    simp only [Outcome.bind_eq_ok_iff, mul_comm_eq_ok_iff (a := a)]
  rw [hcomm, bind_mul_eq_ok_iff, bind_mul_eq_ok_iff, add_rotate]

/-- What is left without a symbol, times the power of that symbol. -/
theorem exists_mul_split (m : Monomial) (s : Symbol) :
    ∃ power, ofFactors [(s, (m.split s).1)] = .ok power ∧ (m.split s).2.mul power = .ok m := by
  refine ⟨one.withExponent s (m.exponent s), ofFactors_eq_ok_iff.2 fun t => ?_,
    mul_eq_ok_iff.2 fun t => ?_⟩
  · by_cases ht : t = s
    · simp [split, ht]
    · simp [split, ht, Ne.symm ht]
  · by_cases ht : t = s
    · simp [split, ht]
    · simp [split, ht]

/-- Multiplication is a partial commutative monoid. It fails exactly if some sum of exponents is no
word, and reports the first one. -/
theorem partial_commutative_monoid :
    (∀ a b : Monomial,
      ((∃ n, a.mul b = .ok n) ↔ ∀ v, (a.exponent v).toNat + (b.exponent v).toNat ≤ 4294967295) ∧
      (∀ n, a.mul b = .ok n →
        (∀ v, (n.exponent v).toNat = (a.exponent v).toNat + (b.exponent v).toNat) ∧
          ∀ f ∈ n.factors, f.2 ≠ 0) ∧
      (∀ x, a.mul b = .error x ↔
        if a.size < b.size then x.Reports b.exponent a.exponent
        else x.Reports a.exponent b.exponent) ∧
      ∀ n, a.mul b = .ok n ↔ b.mul a = .ok n) ∧
    (∀ a b c n : Monomial,
      (a.mul b >>= fun ab => ab.mul c) = .ok n ↔ (b.mul c >>= fun bc => a.mul bc) = .ok n) ∧
    (∀ a : Monomial, a.mul one = .ok a) ∧
    (∀ fs, ((∃ m, ofFactors fs = .ok m) ↔ ∀ v, listedExponent fs v ≤ 4294967295) ∧
      (∀ m, ofFactors fs = .ok m ↔ ∀ v, (m.exponent v).toNat = listedExponent fs v) ∧
      ∀ gs, fs.Perm gs → ∀ m, ofFactors fs = .ok m ↔ ofFactors gs = .ok m) ∧
    ∀ (m : Monomial) (s : Symbol), (m.split s).1 = m.exponent s ∧ (m.split s).2.exponent s = 0 ∧
      ∃ power, ofFactors [(s, (m.split s).1)] = .ok power ∧ (m.split s).2.mul power = .ok m := by
  refine ⟨?_, ?_, ?_, ?_, ?_⟩
  · intro a b
    refine ⟨?_, ?_, fun x => mul_eq_error_iff, fun n => mul_comm_eq_ok_iff⟩
    · simp only [exists_mul_eq_ok_iff, UInt32.size, Nat.lt_succ_iff]
    · intro n hn
      exact ⟨mul_eq_ok_iff.1 hn, n.positive⟩
  · intro a b c n
    exact mul_assoc_eq_ok_iff
  · exact mul_one_eq_ok
  · intro fs
    exact ⟨exists_ofFactors_eq_ok_iff, fun m => ofFactors_eq_ok_iff, fun gs h m => ofFactors_perm h m⟩
  · intro m s
    exact ⟨rfl, by simp [split], exists_mul_split m s⟩

/-- In `(x ^ 4294967295 * y) * (x * y * z)` the right factor has more symbols, so it is its exponent of
`x` that is reported as the current one. -/
theorem partial_commutative_monoid_largest_exponent :
    let x : Symbol := ⟨"x"⟩
    let y : Symbol := ⟨"y"⟩
    let z : Symbol := ⟨"z"⟩
    let a : Monomial := (ofSymbol y).withExponent x 4294967295
    let b : Monomial := ((ofSymbol z).withExponent y 1).withExponent x 1
    let c : Monomial := (ofSymbol z).withExponent y 4294967294
    let fs : List (Symbol × UInt32) := [(x, 4294967294), (z, 0), (y, 1), (x, 1)]
    a.size < b.size ∧ a.mul b = .error ⟨x, 1, 4294967295⟩ ∧
      (⟨x, 1, 4294967295⟩ : ExponentOverflow).Reports b.exponent a.exponent ∧
      (∃ n, a.mul c = .ok n ∧ c.mul a = .ok n ∧
        (∀ v, (n.exponent v).toNat = (a.exponent v).toNat + (c.exponent v).toNat) ∧
        ∀ f ∈ n.factors, f.2 ≠ 0) ∧
      fs.Perm fs.reverse ∧ ofFactors fs = .ok a ∧ ofFactors fs.reverse = .ok a := by
  intro x y z a b c fs
  have hsize : a.size < b.size := by decide +kernel
  have herror : a.mul b = .error ⟨x, 1, 4294967295⟩ := by decide +kernel
  have hfactors : ofFactors fs = .ok a := by decide +kernel
  have hperm : fs.Perm fs.reverse := fs.reverse_perm.symm
  rcases partial_commutative_monoid with ⟨hmul, -, -, hlist, -⟩
  have hreports := (hmul a b).2.2.1 ⟨x, 1, 4294967295⟩
  rw [if_pos hsize] at hreports
  have hok : (a.mul c).isOk = true := by decide +kernel
  rcases Outcome.exists_eq_ok_of_isOk hok with ⟨n, hn⟩
  exact ⟨hsize, herror, hreports.1 herror, ⟨n, hn, ((hmul a c).2.2.2 n).1 hn, (hmul a c).2.1 n hn⟩, hperm,
    hfactors, ((hlist fs).2.2 _ hperm a).1 hfactors⟩

end Monomial

end SymbolicPoly
