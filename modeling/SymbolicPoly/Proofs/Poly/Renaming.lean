import Mathlib.Algebra.MvPolynomial.Rename
import SymbolicPoly.Proofs.Poly.ComposeOverflow

/-!
# Renaming — symbols in the place of symbols

A composition that puts symbols in the place of symbols renames the variables. Several may get one
name, and the name may be that of a variable that is left alone. Then factors and terms merge, and
terms may cancel.

In `MvPolynomial Symbol R` this is `MvPolynomial.rename`, which always exists
(`Renames.toMvPolynomial_compose`). Here it exists exactly if in each term the exponents of the
variables that get one name add up to an exponent (`Renames.exists_compose_iff`): the powers, the
products of powers and the product with the factors that stay never need more room than the renamed
monomial, and the term cannot vanish before it is complete, since the symbols have the coefficient one.
-/

namespace SymbolicPoly

universe u

/-- The exponent that `s` gets when every symbol `u` is renamed to `f u`. -/
def Monomial.renamedExponent (f : Symbol → Symbol) (m : Monomial) (s : Symbol) : Nat :=
  (m.factors.map fun g => if f g.1 = s then g.2.toNat else 0).sum

theorem Monomial.mapDomain_toFinsupp_apply (f : Symbol → Symbol) (m : Monomial) (s : Symbol) :
    m.toFinsupp.mapDomain f s = m.renamedExponent f s := by
  rw [Finsupp.mapDomain, Finsupp.sum_apply, sum_toFinsupp]
  simp only [renamedExponent, Finsupp.single_apply]

/-- The renamed exponents belong to a monomial exactly if they are words. -/
theorem Monomial.exists_toFinsupp_eq_mapDomain_iff {f : Symbol → Symbol} {m : Monomial} :
    (∃ n : Monomial, n.toFinsupp = m.toFinsupp.mapDomain f) ↔
      ∀ s, m.renamedExponent f s < UInt32.size := by
  simp only [exists_toFinsupp_eq_iff, mapDomain_toFinsupp_apply]

theorem Monomial.exists_rename (f : Symbol → Symbol) :
    ∃ rename : Monomial → Monomial, ∀ m, (∀ s, m.renamedExponent f s < UInt32.size) →
      (rename m).toFinsupp = m.toFinsupp.mapDomain f := by
  have hexists : ∀ m : Monomial, ∃ n : Monomial,
      (∀ s, m.renamedExponent f s < UInt32.size) → n.toFinsupp = m.toFinsupp.mapDomain f := by
    intro m
    by_cases hm : ∀ s, m.renamedExponent f s < UInt32.size
    · exact (exists_toFinsupp_eq_mapDomain_iff.2 hm).imp fun _ hn _ => hn
    · exact ⟨m, fun hm' => absurd hm' hm⟩
  choose rename hrename using hexists
  exact ⟨rename, hrename⟩

namespace Poly

variable {R : Type u} {p q : Poly R} {values : Assignment (Poly R)} {f : Symbol → Symbol}

/-- The assignment puts the symbol `f s` in the place of `s`. Where it has no value, `f` changes
nothing. -/
def Renames (K : CoeffRing R) (values : Assignment (Poly R)) (f : Symbol → Symbol) : Prop :=
  ∀ s, values[s]? = some (symbol K (f s)) ∨ (values[s]? = none ∧ f s = s)

namespace Renames

variable {K : CoeffRing R}

theorem eq_symbol (h : Renames K values f) {s : Symbol} {w : Poly R} (hs : values[s]? = some w) :
    w = symbol K (f s) := by
  rcases h s with hvalue | ⟨hnone, -⟩
  · exact Option.some.inj (hs.symm.trans hvalue)
  · cases hs.symm.trans hnone

theorem apply_eq_self (h : Renames K values f) {s : Symbol} (hs : values[s]? = none) : f s = s := by
  rcases h s with hvalue | ⟨-, hself⟩
  · cases hs.symm.trans hvalue
  · exact hself

variable [CommRing R] [K.Agrees]

/-! ## Renaming in the ring of Mathlib -/

theorem replacement_eq_X (h : Renames K values f) (s : Symbol) :
    replacement values s = MvPolynomial.X (f s) := by
  cases hs : values[s]? with
  | none =>
      rw [replacement_of_eq_none hs, h.apply_eq_self hs]
  | some w =>
      rw [replacement_of_eq_some hs, h.eq_symbol hs, toMvPolynomial_symbol]

theorem bind₁_replacement (h : Renames K values f) (P : MvPolynomial Symbol R) :
    MvPolynomial.bind₁ (replacement values) P = MvPolynomial.rename f P := by
  have hX : replacement values = MvPolynomial.X ∘ f := funext h.replacement_eq_X
  rw [hX, MvPolynomial.rename_eq_aeval]
  rfl

theorem toMvPolynomial_compose (h : Renames K values f) (hq : p.compose K values = .ok q) :
    q.toMvPolynomial = MvPolynomial.rename f p.toMvPolynomial :=
  (Poly.toMvPolynomial_compose hq).trans (h.bind₁_replacement _)

theorem toMvPolynomial_composeTerm (h : Renames K values f) {t : Monomial × R} {r : Poly R}
    (hr : composeTerm K values t = .ok r) :
    r.toMvPolynomial = MvPolynomial.monomial (t.1.toFinsupp.mapDomain f) t.2 := by
  rw [Poly.toMvPolynomial_composeTerm hr, h.bind₁_replacement, MvPolynomial.rename_monomial]

/-! ## Overflow -/

/-- What comes in for the assigned factors and what the others keep is no more than what the renamed
monomial has. -/
theorem replacedExponent_add_le (h : Renames K values f) (fs : List (Symbol × UInt32)) (s : Symbol) :
    replacedExponent K values fs s +
        Monomial.listedExponent (fs.filter fun g => !decide (g.1 ∈ values)) s ≤
      (fs.map fun g => if f g.1 = s then g.2.toNat else 0).sum := by
  induction fs with
  | nil =>
      simp
  | cons g fs ih =>
      rw [List.map_cons, List.sum_cons]
      cases hg : values[g.1]? with
      | none =>
          rw [replacedExponent_cons_of_eq_none hg, h.apply_eq_self hg,
            List.filter_cons_of_pos (by simp [Assignment.not_mem_of_eq_none hg]),
            Monomial.listedExponent_cons]
          omega
      | some w =>
          have hpower : g.2.toNat * (w.degreeIn K s).toNat ≤ if f g.1 = s then g.2.toNat else 0 := by
            have hle := Nat.mul_le_mul_left g.2.toNat (degreeIn_symbol_le (K := K) (f g.1) s)
            rw [h.eq_symbol hg]
            simpa using hle
          rw [replacedExponent_cons_of_eq_some hg,
            List.filter_cons_of_neg (by simp [Assignment.mem_of_eq_some hg])]
          omega

theorem exists_composeTerm_iff (h : Renames K values f) {t : Monomial × R} (ht : t.2 ≠ 0) :
    (∃ r, composeTerm K values t = .ok r) ↔ ∀ s, t.1.renamedExponent f s < UInt32.size := by
  constructor
  · rintro ⟨r, hr⟩
    -- The renamed monomial has the coefficient of the term, so it is that of a stored one.
    have hcoeff : r.toMvPolynomial.coeff (t.1.toFinsupp.mapDomain f) ≠ 0 := by
      simpa [h.toMvPolynomial_composeTerm hr] using ht
    exact Monomial.exists_toFinsupp_eq_mapDomain_iff.1 (exists_toFinsupp_of_coeff_ne_zero hcoeff)
  · intro hsmall
    refine exists_composeTerm_of_degreeIn (fun s w hs => ?_) fun s => ?_
    · rw [h.eq_symbol hs]
      exact canonical_monomial _ _
    · have hle := h.replacedExponent_add_le t.1.factors s
      rw [← Monomial.factors_unassigned, Monomial.listedExponent_factors] at hle
      exact hle.trans_lt (hsmall s)

theorem exists_compose_iff (h : Renames K values f) (hp : p.Canonical K) :
    (∃ q, p.compose K values = .ok q) ↔
      ∀ t ∈ p.toList, ∀ s, t.1.renamedExponent f s < UInt32.size := by
  rw [Poly.exists_compose_iff]
  exact forall₂_congr fun t ht => h.exists_composeTerm_iff (hp.toList_ne_zero t ht)

theorem exists_compose_eq_error_iff (h : Renames K values f) (hp : p.Canonical K) :
    (∃ e, p.compose K values = .error e) ↔
      ∃ t ∈ p.toList, ∃ s, 4294967295 < t.1.renamedExponent f s := by
  simp only [Outcome.exists_eq_error_iff, h.exists_compose_iff hp, UInt32.size, not_forall, not_lt,
    Nat.succ_le_iff, exists_prop]

/-! ## The renamed polynomial -/

/-- The terms of the renamed polynomial are those of `p` with renamed monomials. -/
theorem compose_eq_ofTerms (h : Renames K values f) (hq : p.compose K values = .ok q)
    {rename : Monomial → Monomial}
    (hrename : ∀ t ∈ p.toList, (rename t.1).toFinsupp = t.1.toFinsupp.mapDomain f) :
    q = ofTerms K (p.toList.map fun t => (rename t.1, t.2)) := by
  apply (canonical_compose hq).ext_toMvPolynomial (canonical_ofTerms _)
  rw [h.toMvPolynomial_compose hq, toMvPolynomial_ofTerms]
  refine (termSum_map (MvPolynomial.rename f).toLinearMap.toAddMonoidHom fun t ht => ?_).symm
  simp [hrename t ht, MvPolynomial.rename_monomial]

theorem compose_of_apply_eq_self (h : Renames K values f) (hp : p.Canonical K)
    (hf : ∀ s, f s = s) : p.compose K values = .ok p := by
  have hid : f = id := funext hf
  have hsmall : ∀ t ∈ p.toList, ∀ s, t.1.renamedExponent f s < UInt32.size := by
    intro t _
    refine Monomial.exists_toFinsupp_eq_mapDomain_iff.1 ⟨t.1, ?_⟩
    rw [hid, Finsupp.mapDomain_id]
  rcases (h.exists_compose_iff hp).2 hsmall with ⟨q, hq⟩
  have heq : q = p := by
    apply (canonical_compose hq).ext_toMvPolynomial hp
    rw [h.toMvPolynomial_compose hq, hid, MvPolynomial.rename_id_apply]
  exact heq ▸ hq

end Renames

/-- Putting symbols in the place of symbols renames the variables. It fails exactly if the exponents of
the variables that get one name add up to too much in some term. -/
theorem compose_renames {K : CoeffRing R} (hK : K.Lawful) (hp : p.Canonical K)
    (h : Renames K values f) :
    ((∃ e, p.compose K values = .error e) ↔
        ∃ t ∈ p.toList, ∃ s, 4294967295 < t.1.renamedExponent f s) ∧
      ((∀ t ∈ p.toList, ∀ s, t.1.renamedExponent f s ≤ 4294967295) →
        ∃ rename : Monomial → Monomial,
          (∀ t ∈ p.toList, ∀ s, ((rename t.1).exponent s).toNat = t.1.renamedExponent f s) ∧
            p.compose K values = .ok (ofTerms K (p.toList.map fun t => (rename t.1, t.2)))) ∧
      ((∀ s, f s = s) → p.compose K values = .ok p) := by
  let _ := hK.toCommRing
  have _ := hK.agrees
  refine ⟨h.exists_compose_eq_error_iff hp, ?_, h.compose_of_apply_eq_self hp⟩
  intro hle
  have hsmall : ∀ t ∈ p.toList, ∀ s, t.1.renamedExponent f s < UInt32.size :=
    fun t ht s => Nat.lt_succ_of_le (hle t ht s)
  rcases Monomial.exists_rename f with ⟨rename, hrename⟩
  refine ⟨rename, fun t ht s => ?_, ?_⟩
  · rw [← Monomial.mapDomain_toFinsupp_apply, ← hrename t.1 (hsmall t ht), Monomial.toFinsupp_apply]
  · rcases (h.exists_compose_iff hp).2 hsmall with ⟨q, hq⟩
    rw [hq, h.compose_eq_ofTerms hq fun t ht => hrename t.1 (hsmall t ht)]

/-- Renaming `x` to `y` merges the two terms of `p`, whose exponents add up to the largest one, and
one more factor overflows. With the largest exponent nothing overflows if the symbols stay. -/
theorem compose_renames_largest_exponent :
    let x : Symbol := ⟨"x"⟩
    let y : Symbol := ⟨"y"⟩
    let f : Symbol → Symbol := fun s => if s = x then y else s
    let top : Monomial := Monomial.one.withExponent y 4294967295
    let merged : Monomial := (Monomial.ofSymbol y).withExponent x 4294967294
    let p : Poly Int := ofTerms integers [(merged, 2), (top, -3)]
    let q : Poly Int := ofTerms integers [(top.withExponent x 1, 1), (.one, 4)]
    let values : Assignment (Poly Int) := .ofList [(x, symbol integers y)]
    let same : Assignment (Poly Int) := .ofList [(x, symbol integers x)]
    integers.Lawful ∧ p.Canonical integers ∧ q.Canonical integers ∧ Renames integers values f ∧
      (∃ rename : Monomial → Monomial,
        (∀ t ∈ p.toList, ∀ s, ((rename t.1).exponent s).toNat = t.1.renamedExponent f s) ∧
          p.compose integers values =
            .ok (ofTerms integers (p.toList.map fun t => (rename t.1, t.2)))) ∧
      p.compose integers values = .ok (monomial integers top (-1)) ∧
      (∃ e, q.compose integers values = .error e) ∧
      Renames integers same id ∧ q.compose integers same = .ok q := by
  intro x y f top merged p q values same
  have hp : p.Canonical integers := by decide +kernel
  have hq : q.Canonical integers := by decide +kernel
  have hrun : (p.compose integers values).toOption.map
      (decide <| · = monomial integers top (-1)) = some true := by decide +kernel
  have hmerged : p.compose integers values = .ok (monomial integers top (-1)) := by
    rcases Outcome.exists_eq_ok_of_toOption_map hrun with ⟨r, hr, hmonomial⟩
    rw [hr, of_decide_eq_true hmonomial]
  have hvalues : Renames integers values f := by
    intro s
    by_cases hs : s = x
    · exact .inl (by simp [values, f, hs])
    · exact .inr ⟨by simp [values, Ne.symm hs], if_neg hs⟩
  have hsame : Renames integers same id := by
    intro s
    by_cases hs : s = x
    · exact .inl (by simp [same, hs])
    · exact .inr ⟨by simp [same, Ne.symm hs], rfl⟩
  rcases compose_renames lawful_integers hp hvalues with ⟨hoverflow, hrename, -⟩
  rcases compose_renames lawful_integers hq hvalues with ⟨hoverflow', -, -⟩
  -- The composition of `p` returned, so none of its sums of exponents is too large.
  have hle : ∀ t ∈ p.toList, ∀ s, t.1.renamedExponent f s ≤ 4294967295 := by
    intro t ht s
    by_contra hlt
    rcases hoverflow.2 ⟨t, ht, s, Nat.lt_of_not_le hlt⟩ with ⟨e, he⟩
    cases he.symm.trans hmerged
  have htop : (top.withExponent x 1, 1) ∈ q.toList := by decide +kernel
  have hlarge : 4294967295 < (top.withExponent x 1).renamedExponent f y := by decide +kernel
  exact ⟨lawful_integers, hp, hq, hvalues, hrename hle, hmerged, hoverflow'.2 ⟨_, htop, y, hlarge⟩, hsame,
    (compose_renames lawful_integers hq hsame).2.2 fun _ => rfl⟩

end Poly

end SymbolicPoly
