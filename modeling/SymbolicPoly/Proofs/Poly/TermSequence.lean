import SymbolicPoly.Poly.Text
import SymbolicPoly.Proofs.Monomial.TermOrder
import SymbolicPoly.Proofs.Poly.GradedTerms
import SymbolicPoly.Ring.Integers

/-!
# Term sequence — one order of the terms, whatever order they come in

A list of the stored terms can have any order (`Poly.Lists`). Sorted, it becomes the one list of them
in which every term comes strictly before the next (`Lists.eq_sortTerms_iff`). Distinct monomials never
tie in the graded order, so nothing is left to the order before sorting, and texts are determined, too.

In this list total degrees do not increase, and the constant term is the last one.
-/

namespace SymbolicPoly

universe u

theorem Monomial.compareGraded_eq_lt_iff_gradedKey {a b : Monomial} :
    compareGraded a b = .lt ↔ b.gradedKey < a.gradedKey := by
  rw [compareGraded_eq_compare, compare_lt_iff_lt]

/-- Nothing comes after the monomial without factors. -/
theorem Monomial.compareGraded_one_ne_lt (a : Monomial) : compareGraded one a ≠ .lt := by
  rw [ne_eq, compareGraded_eq_lt_iff_gradedKey, gradedKey_one]
  exact not_lt_bot

namespace Poly

variable {R : Type u} {p q : Poly R} {ts us : List (Monomial × R)}

/-! ## Strictly sorted lists -/

/-- Each term comes strictly before all terms behind it. -/
def InGradedOrder (ts : List (Monomial × R)) : Prop :=
  ts.Pairwise fun t u => Monomial.compareGraded t.1 u.1 = .lt

instance (ts : List (Monomial × R)) : Decidable (InGradedOrder ts) :=
  inferInstanceAs (Decidable (ts.Pairwise _))

namespace InGradedOrder

theorem eq_of_perm (ht : InGradedOrder ts) (hu : InGradedOrder us) (h : ts.Perm us) : ts = us := by
  refine List.Perm.eq_of_pairwise ?_ ht hu h
  intro t u _ _ htu hut
  rw [Monomial.compareGraded_eq_lt_iff_gradedKey] at htu hut
  exact absurd htu hut.asymm

theorem pairwise_totalDegree (h : InGradedOrder ts) :
    ts.Pairwise fun t u => u.1.totalDegree ≤ t.1.totalDegree := by
  refine h.imp ?_
  intro t u htu
  rcases Monomial.compareGraded_eq_lt_iff.1 htu with hlt | ⟨heq, -⟩
  · exact hlt.le
  · exact heq.ge

theorem getLast?_eq_some (h : InGradedOrder ts) {c : R} (hc : (.one, c) ∈ ts) :
    ts.getLast? = some (.one, c) := by
  rcases List.append_of_mem hc with ⟨front, back, rfl⟩
  cases back with
  | nil =>
      exact List.getLast?_concat
  | cons t back =>
      -- A term behind the constant one would have to come after the monomial without factors.
      have htail := (List.pairwise_append.1 h).2.1
      exact absurd ((List.pairwise_cons.1 htail).1 t List.mem_cons_self)
        (Monomial.compareGraded_one_ne_lt t.1)

end InGradedOrder

/-! ## The sorted list -/

theorem Lists.inGradedOrder_sortTerms (h : p.Lists ts) : InGradedOrder (sortTerms ts) := by
  refine (pairwise_sortTerms h.nodup_keys).imp ?_
  intro t u htu
  exact Monomial.compareGraded_eq_lt_iff_gradedKey.2 htu

theorem Lists.sorted (h : p.Lists ts) : p.Lists (sortTerms ts) :=
  h.of_perm (List.mergeSort_perm ts _)

theorem Lists.eq_sortTerms_iff (h : p.Lists ts) :
    us = sortTerms ts ↔ p.Lists us ∧ InGradedOrder us := by
  constructor
  · rintro rfl
    exact ⟨h.sorted, h.inGradedOrder_sortTerms⟩
  · rintro ⟨hus, horder⟩
    exact horder.eq_of_perm h.inGradedOrder_sortTerms (hus.perm h.sorted)

theorem Lists.sortTerms_eq (h : p.Lists ts) : sortTerms ts = p.gradedTerms :=
  (lists_toList p).eq_sortTerms_iff.2 ⟨h.sorted, h.inGradedOrder_sortTerms⟩

/-! ## Texts -/

/-- The written form of a polynomial whose terms are met in the order of the list. -/
def renderListed (text : R → String) (ts : List (Monomial × R)) : String :=
  renderTerms text (sortTerms ts)

/-- The listed form of a polynomial whose terms are met in the order of the list. -/
def debugListed (text : R → String) (ts : List (Monomial × R)) : String :=
  "LabeledPolynomial\x7b" ++ ", ".intercalate ((sortTerms ts).map (debugTerm text)) ++ "\x7d"

theorem Lists.renderListed_eq (h : p.Lists ts) (text : R → String) :
    renderListed text ts = p.render text :=
  congrArg (renderTerms text) h.sortTerms_eq

theorem Lists.debugListed_eq (h : p.Lists ts) (text : R → String) :
    debugListed text ts = p.debug text := by
  unfold debugListed debug
  rw [h.sortTerms_eq]

/-- Terms met in any order have one list in graded order. It starts with the highest degrees and ends
with the constant term. What is stored determines it, and with it the texts. -/
theorem terms_sorted_uniquely (h : p.Lists ts) :
    ((∀ t ∈ ts, t.1.size < 2 ^ 32) → ∀ t ∈ ts, t.1.totalDegree < 2 ^ 64) ∧
      (∀ us, us = sortTerms ts ↔
        p.Lists us ∧ us.Pairwise fun t u => Monomial.compareGraded t.1 u.1 = .lt) ∧
      sortTerms ts = p.gradedTerms ∧
      (sortTerms ts).Pairwise (fun t u => u.1.totalDegree ≤ t.1.totalDegree) ∧
      (∀ c, p.constantTerm? = some c → (sortTerms ts).getLast? = some (.one, c)) ∧
      (∀ text, renderListed text ts = p.render text ∧ debugListed text ts = p.debug text) ∧
      ∀ (q : Poly R) us, q.Lists us → (∀ m, q.coefficient? m = p.coefficient? m) →
        sortTerms us = sortTerms ts ∧
          ∀ text, renderListed text us = p.render text ∧ debugListed text us = p.debug text := by
  refine ⟨?_, fun us => h.eq_sortTerms_iff, h.sortTerms_eq,
    h.inGradedOrder_sortTerms.pairwise_totalDegree, ?_, ?_, ?_⟩
  · intro hsize t ht
    exact Monomial.totalDegree_lt (hsize t ht)
  · intro c hc
    exact h.inGradedOrder_sortTerms.getLast?_eq_some (h.sorted.mem_iff.2 hc)
  · intro text
    exact ⟨h.renderListed_eq text, h.debugListed_eq text⟩
  · intro q us hq hsame
    have hus : p.Lists us := hq.of_coefficient?_eq hsame
    refine ⟨hus.sortTerms_eq.trans h.sortTerms_eq.symm, ?_⟩
    intro text
    exact ⟨hus.renderListed_eq text, hus.debugListed_eq text⟩

/-- Two orders of the same terms, with two monomials of degree two and a stored zero. -/
theorem terms_sorted_uniquely_scrambled :
    let x : Symbol := ⟨"x"⟩
    let y : Symbol := ⟨"y"⟩
    let xy : Monomial := (Monomial.ofSymbol x).withExponent y 1
    let square : Monomial := Monomial.one.withExponent x 2
    let ts : List (Monomial × Int) := [(.one, 5), (xy, 0), (.ofSymbol y, -6), (square, 1)]
    let us : List (Monomial × Int) := [(.ofSymbol y, -6), (square, 1), (.one, 5), (xy, 0)]
    let p : Poly Int := ofStoredTerms ts
    let q : Poly Int := ofStoredTerms us
    p.Lists ts ∧ q.Lists us ∧ (∀ m, q.coefficient? m = p.coefficient? m) ∧
      square.totalDegree < 2 ^ 64 ∧
      sortTerms ts = [(square, 1), (xy, 0), (.ofSymbol y, -6), (.one, 5)] ∧
      (sortTerms ts).getLast? = some (.one, 5) ∧ sortTerms us = sortTerms ts ∧
      renderListed Integers.render us = p.render Integers.render ∧
      p.render Integers.render = "x^2 + 0*x*y - 6*y + 5" := by
  intro x y xy square ts us p q
  have hts : p.Lists ts := lists_ofStoredTerms (by decide +kernel)
  have hus : q.Lists us := lists_ofStoredTerms (by decide +kernel)
  have hsame : ∀ m, q.coefficient? m = p.coefficient? m :=
    hus.coefficient?_eq (hts.of_perm (by decide +kernel))
  rcases terms_sorted_uniquely hts with ⟨hdegree, hsorted, hgraded, -, hlast, -, hall⟩
  rcases hall q us hus hsame with ⟨heq, htext⟩
  have hterms : sortTerms ts = [(square, 1), (xy, 0), (.ofSymbol y, -6), (.one, 5)] :=
    ((hsorted _).2 ⟨hts.of_perm (by decide +kernel), by decide +kernel⟩).symm
  refine ⟨hts, hus, hsame, hdegree (by decide +kernel) (square, 1) (by decide +kernel), hterms,
    hlast 5 (by decide +kernel), heq, (htext _).1, ?_⟩
  rw [render, ← hgraded, hterms]
  decide +kernel

end Poly

end SymbolicPoly
