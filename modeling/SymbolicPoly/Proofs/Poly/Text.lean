import SymbolicPoly.Proofs.Monomial.Text
import SymbolicPoly.Proofs.Poly.TermSequence
import SymbolicPoly.Proofs.Poly.Variables
import SymbolicPoly.Proofs.Ring.Instances

/-!
# Polynomial text — polynomials can be read from their texts

The text of a polynomial determines it, if the names of its symbols are identifiers
(`Canonical.eq_of_render_eq`). It is read term by term, since a term has blanks in front of it only. In a
term, what is left after the sign begins with the digits of the coefficient. They end where the monomial
begins, with a letter or with `*`, and if there are none the coefficient was one.

A polynomial without terms is written like a constant term zero, which is not stored.
-/

namespace SymbolicPoly

namespace Poly

universe u

variable {R : Type u}

/-! ## Terms without their signs -/

/-- The numeral of the coefficient, as far as it is written. -/
def numberPart (m : Monomial) (magnitude : String) : String :=
  if m.isOne = false ∧ magnitude = "1" then "" else magnitude

def monomialPart (m : Monomial) (magnitude : String) : String :=
  if m.isOne then "" else if magnitude = "1" then m.render else "*" ++ m.render

theorem renderUnsigned_eq (m : Monomial) (magnitude : String) :
    renderUnsigned m magnitude = numberPart m magnitude ++ monomialPart m magnitude := by
  by_cases hone : m.isOne = true <;> by_cases hunit : magnitude = "1" <;>
    simp [renderUnsigned, numberPart, monomialPart, hone, hunit, String.append_assoc]

/-- A term that can be read: its symbols are identifiers, and digits are its coefficient. -/
structure IsLegible (t : Monomial × String) : Prop where
  isIdentifier : t.1.HasIdentifiers
  isNumeral : IsNumeral t.2

section Unsigned

variable {m : Monomial} {a : String}

theorem numberPart_eq_empty_iff (ha : IsNumeral a) :
    numberPart m a = "" ↔ m.isOne = false ∧ a = "1" := by
  unfold numberPart
  split
  · rename_i hdropped
    exact iff_of_true rfl hdropped
  · rename_i hwritten
    exact iff_of_false ha.ne_empty hwritten

theorem mem_numberPart (ha : IsNumeral a) :
    ∀ c ∈ (numberPart m a).toList, c.isDigit = true ∨ c = '/' := by
  unfold numberPart
  split
  · simp
  · exact ha.mem_toList

theorem exists_monomialPart_eq_cons (hone : m.isOne = false) (hm : m.HasIdentifiers) :
    ∃ c cs, (monomialPart m a).toList = c :: cs ∧ (c.isAlpha = true ∨ c = '*') := by
  by_cases hunit : a = "1"
  · rcases Monomial.exists_render_eq_cons hone hm with ⟨c, cs, hrender, hc⟩
    exact ⟨c, cs, by simpa [monomialPart, hone, hunit] using hrender, .inl hc⟩
  · exact ⟨'*', m.render.toList, by simp [monomialPart, hone, hunit], .inr rfl⟩

theorem ends_monomialPart (hm : m.HasIdentifiers) :
    Ends (fun c => c.isAlpha = true ∨ c = '*') (monomialPart m a).toList := by
  cases hone : m.isOne with
  | true =>
      simp [monomialPart, hone]
  | false =>
      rcases exists_monomialPart_eq_cons hone hm with ⟨c, cs, htext, hc⟩
      rw [htext]
      exact ends_cons.2 hc

/-- Nothing is written of the monomial without factors, and all others begin with what does not end a
term. -/
theorem delimited_monomialPart (a : String) :
    Delimited (fun m => monomialPart m a) Monomial.HasIdentifiers (· = ' ') := by
  have hnone : ∀ {m : Monomial} {rest rest' : List Char}, m.isOne = false → m.HasIdentifiers →
      Ends (· = ' ') rest → rest ≠ (monomialPart m a).toList ++ rest' := by
    intro m rest rest' hone hm hrest
    rcases exists_monomialPart_eq_cons hone hm with ⟨c, cs, htext, hc⟩
    rw [htext]
    refine hrest.ne_cons ?_ _
    rintro rfl
    revert hc
    decide
  refine ⟨?_⟩
  intro m m' rest rest' hm hm' hrest hrest' heq
  cases hone : m.isOne <;> cases hone' : m'.isOne
  · have hrender : m.render.toList ++ rest = m'.render.toList ++ rest' := by
      by_cases hunit : a = "1" <;> simpa [monomialPart, hone, hone', hunit] using heq
    exact Monomial.delimited_render.eq_and_eq ⟨hone, hm⟩ ⟨hone', hm'⟩ hrest hrest' hrender
  · exact absurd (by simpa [monomialPart, hone'] using heq.symm) (hnone hone hm hrest')
  · exact absurd (by simpa [monomialPart, hone] using heq) (hnone hone' hm' hrest)
  · have hsame : m = m' := Monomial.ext_factors <| by
      rw [List.isEmpty_iff.1 hone, List.isEmpty_iff.1 hone']
    exact ⟨hsame, by simpa [monomialPart, hone, hone'] using heq⟩

end Unsigned

/-- Letters come behind the digits. -/
theorem not_isDigit_of_isAlpha {c : Char} (h : c.isAlpha = true) : ¬ c.isDigit = true := by
  have hletter : 65 ≤ c.val := by
    rcases (Bool.or_eq_true _ _).mp h with hupper | hlower
    · exact (of_decide_eq_true hupper).1
    · have hle : 97 ≤ c.val := of_decide_eq_true ((Bool.and_eq_true _ _).mp hlower).1
      exact UInt32.le_trans (by decide) hle
  intro hdigit
  have hle : c.val ≤ 57 := of_decide_eq_true ((Bool.and_eq_true _ _).mp hdigit).2
  exact absurd (UInt32.le_trans hletter hle) (by decide)

theorem delimited_renderUnsigned :
    Delimited (fun t : Monomial × String => renderUnsigned t.1 t.2) IsLegible (· = ' ') := by
  -- No character of a numeral begins a monomial or ends a term.
  have hends : ∀ {m : Monomial} {a : String} {rest : List Char}, m.HasIdentifiers →
      Ends (· = ' ') rest →
      Ends (fun c => ¬ (c.isDigit = true ∨ c = '/')) ((monomialPart m a).toList ++ rest) := by
    intro m a rest hm hrest
    refine ((ends_monomialPart hm).mono ?_).append (hrest.mono ?_)
    · rintro c (hc | rfl)
      · rintro (hdigit | rfl)
        · exact not_isDigit_of_isAlpha hc hdigit
        · exact absurd hc (by decide)
      · decide
    · rintro _ rfl
      decide
  refine ⟨?_⟩
  rintro ⟨m, a⟩ ⟨m', a'⟩ rest rest' ⟨hm, ha⟩ ⟨hm', ha'⟩ hrest hrest' heq
  simp only [renderUnsigned_eq, String.toList_append, List.append_assoc] at heq
  -- So the numerals are equal, as far as they are written, and the monomials are what is left.
  rcases eq_and_eq_of_append_eq (fun c hc => not_not_intro (mem_numberPart ha c hc))
    (fun c hc => not_not_intro (mem_numberPart ha' c hc)) (hends hm hrest) (hends hm' hrest') heq with
    ⟨hnumber, htail⟩
  have hdropped : (m.isOne = false ∧ a = "1") ↔ (m'.isOne = false ∧ a' = "1") := by
    rw [← numberPart_eq_empty_iff ha, ← numberPart_eq_empty_iff ha', String.toList_inj.1 hnumber]
  have hsame : a = a' := by
    by_cases h : m.isOne = false ∧ a = "1"
    · -- Both coefficients were left out, so both are one.
      exact h.2.trans (hdropped.1 h).2.symm
    · simpa only [numberPart, if_neg h, if_neg (hdropped.not.1 h), String.toList_inj] using hnumber
  subst hsame
  rcases (delimited_monomialPart a).eq_and_eq hm hm' hrest hrest' htail with ⟨rfl, hrest⟩
  exact ⟨rfl, hrest⟩

/-! ## Terms -/

/-- The sign of a term, at the start of a polynomial or after other terms. -/
def signText (first negative : Bool) : String :=
  match first, negative with
  | true, true => "-"
  | true, false => ""
  | false, true => " - "
  | false, false => " + "

theorem delimited_signText (first : Bool) :
    Delimited (signText first) (fun _ => True) (fun c => c ≠ '-') := by
  refine ⟨?_⟩
  intro negative negative' rest rest' _ _ hrest hrest' heq
  cases first with
  | false =>
      -- After other terms both signs are written.
      cases negative <;> cases negative' <;> simp [signText] at heq ⊢ <;> exact heq
  | true =>
      cases negative <;> cases negative'
      · exact ⟨rfl, by simpa [signText] using heq⟩
      · exact absurd (by simpa [signText] using heq) (hrest.ne_cons (not_not_intro rfl) rest')
      · exact absurd (by simpa [signText] using heq.symm) (hrest'.ne_cons (not_not_intro rfl) rest)
      · exact ⟨rfl, by simpa [signText] using heq⟩

theorem ends_renderUnsigned {t : Monomial × String} (ht : IsLegible t) :
    Ends (fun c => c ≠ '-') (renderUnsigned t.1 t.2).toList := by
  rw [renderUnsigned_eq, String.toList_append]
  refine Ends.append ?_ ((ends_monomialPart ht.isIdentifier).mono ?_)
  · intro c hc
    rcases mem_numberPart ht.isNumeral c (List.mem_of_mem_head? hc) with hdigit | rfl
    · rintro rfl
      exact absurd hdigit (by decide)
    · decide
  · rintro c (hc | rfl)
    · rintro rfl
      exact absurd hc (by decide)
    · decide

section Terms

variable {K : CoeffRing R} {text : R → String}

theorem renderTerm_eq (text : R → String) (first : Bool) (t : Monomial × R) :
    renderTerm text first t =
      signText first (splitSign (text t.2)).1 ++ renderUnsigned t.1 (splitSign (text t.2)).2 :=
  rfl

theorem delimited_renderTerm (hK : WritesNumerals K text) (first : Bool) :
    Delimited (renderTerm text first) (fun t => t.1.HasIdentifiers) (· = ' ') := by
  have hpair := (delimited_signText first).append delimited_renderUnsigned fun {t rest} ht hrest =>
    (ends_renderUnsigned ht).append (hrest.mono (by rintro _ rfl; decide))
  -- Sign, monomial and numeral are all there is to a term.
  have hsame : ∀ {t u : Monomial × R},
      ((splitSign (text t.2)).1, t.1, (splitSign (text t.2)).2) =
        ((splitSign (text u.2)).1, u.1, (splitSign (text u.2)).2) → t = u := by
    intro t u h
    simp only [Prod.mk.injEq] at h
    rcases h with ⟨hsign, hmonomial, hmagnitude⟩
    refine Prod.ext hmonomial (hK.text_inj ?_)
    rw [← signed_splitSign (text t.2), hsign, hmagnitude, signed_splitSign]
  exact (hpair.comp (fun t : Monomial × R => ((splitSign (text t.2)).1, t.1, (splitSign (text t.2)).2))
    hsame).congr (fun ht => ⟨trivial, ht, hK.isNumeral _⟩) fun {t} _ => renderTerm_eq text first t

theorem head?_renderTerm_false (text : R → String) (t : Monomial × R) :
    (renderTerm text false t).toList.head? = some ' ' := by
  rw [renderTerm_eq]
  cases (splitSign (text t.2)).1 <;> simp [signText]

theorem delimited_renderTerms (hK : WritesNumerals K text) :
    Delimited (renderTerms text)
      (fun ts => ts ≠ [] ∧ ∀ t ∈ ts, t.1.HasIdentifiers) (fun _ => False) := by
  have hlist := (delimited_renderTerm hK true).writeSequence (delimited_renderTerm hK false)
    (head?_renderTerm_false text) rfl not_false fun _ => False.elim
  refine hlist.congr id ?_
  rintro (_ | ⟨t, ts⟩) ⟨hne, -⟩
  · exact absurd rfl hne
  · rfl

/-- No terms are written like a constant term zero. -/
theorem renderTerms_nil (hK : WritesNumerals K text) :
    renderTerms text [] = renderTerms text [(.one, K.zero)] := by
  have hsplit : splitSign "0" = (false, "0") := by decide
  simp [renderTerms, renderTerm, hK.text_zero, hsplit, renderUnsigned, Monomial.isOne, Monomial.one]

theorem eq_of_renderTerms_eq (hK : WritesNumerals K text) {ts us : List (Monomial × R)}
    (hts : ∀ t ∈ ts, t.2 ≠ K.zero ∧ t.1.HasIdentifiers)
    (hus : ∀ u ∈ us, u.2 ≠ K.zero ∧ u.1.HasIdentifiers)
    (h : renderTerms text ts = renderTerms text us) : ts = us := by
  have hterms := delimited_renderTerms hK
  -- A zero that is not stored is not among the terms.
  have hnil : ∀ {t : Monomial × R} {ts : List (Monomial × R)},
      (∀ u ∈ t :: ts, u.2 ≠ K.zero ∧ u.1.HasIdentifiers) →
      renderTerms text [] ≠ renderTerms text (t :: ts) := by
    intro t ts hts heq
    rw [renderTerms_nil hK] at heq
    have hzero := hterms.eq_of_write_eq ⟨List.cons_ne_nil _ _, by simp [Monomial.hasIdentifiers_one]⟩
      ⟨List.cons_ne_nil _ _, fun u hu => (hts u hu).2⟩ heq
    rcases List.cons.inj hzero with ⟨rfl, -⟩
    exact (hts _ List.mem_cons_self).1 rfl
  cases ts with
  | nil =>
      cases us with
      | nil =>
          rfl
      | cons u us =>
          exact absurd h (hnil hus)
  | cons t ts =>
      cases us with
      | nil =>
          exact absurd h.symm (hnil hts)
      | cons u us =>
          exact hterms.eq_of_write_eq ⟨List.cons_ne_nil _ _, fun u hu => (hts u hu).2⟩
            ⟨List.cons_ne_nil _ _, fun u hu => (hus u hu).2⟩ h

end Terms

/-! ## Polynomials -/

/-- The symbols that occur have identifiers as names. -/
def HasIdentifiers (K : CoeffRing R) (p : Poly R) : Prop :=
  ∀ s ∈ p.vars K, s.isIdentifier = true

instance (K : CoeffRing R) (p : Poly R) : Decidable (p.HasIdentifiers K) :=
  decidable_of_iff (∀ s ∈ (p.vars K).toList, s.isIdentifier = true) (by simp [HasIdentifiers])

/-- The text is that of the terms in graded order. -/
theorem Lists.render_eq {p : Poly R} {ts : List (Monomial × R)} (h : p.Lists ts)
    (horder : InGradedOrder ts) (text : R → String) : p.render text = renderTerms text ts :=
  congrArg (renderTerms text) ((lists_toList p).eq_sortTerms_iff.2 ⟨h, horder⟩).symm

theorem eq_of_gradedTerms_eq {p q : Poly R} (h : p.gradedTerms = q.gradedTerms) : p = q := by
  have hp : p.Lists p.gradedTerms := lists_iff_perm.2 (gradedTerms_perm p)
  have hq : q.Lists p.gradedTerms := lists_iff_perm.2 (h ▸ gradedTerms_perm q)
  exact ext_coefficient? (hp.coefficient?_eq hq)

section Agrees

variable [CommRing R] {K : CoeffRing R} [K.Agrees] {p q : Poly R}

/-- The terms that are written have no zero coefficients, and identifiers as symbols. -/
theorem Canonical.forall_gradedTerms (hp : p.Canonical K) (hnames : p.HasIdentifiers K) :
    ∀ t ∈ p.gradedTerms, t.2 ≠ K.zero ∧ t.1.HasIdentifiers := by
  intro t ht
  have hstored : t ∈ p.toList := (gradedTerms_perm p).mem_iff.1 ht
  refine ⟨canonical_iff_toList.1 hp t hstored, ?_⟩
  intro s hs
  exact hnames s (hp.mem_vars_iff.2 ⟨t, hstored, hs⟩)

theorem Canonical.eq_of_render_eq {text : R → String} (hK : WritesNumerals K text)
    (hp : p.Canonical K) (hq : q.Canonical K) (hpnames : p.HasIdentifiers K)
    (hqnames : q.HasIdentifiers K) (h : p.render text = q.render text) : p = q :=
  eq_of_gradedTerms_eq (eq_of_renderTerms_eq hK (hp.forall_gradedTerms hpnames)
    (hq.forall_gradedTerms hqnames) h)

end Agrees

/-- Canonical polynomials over the integers or the rationals are equal if their texts are, as long as
identifiers are the names of their symbols. -/
theorem render_unambiguous :
    (∀ p q : Poly Int, p.Canonical integers → q.Canonical integers →
      p.HasIdentifiers integers → q.HasIdentifiers integers →
      p.render Integers.render = q.render Integers.render → p = q) ∧
    ∀ p q : Poly Rat, p.Canonical rationals.toCoeffRing → q.Canonical rationals.toCoeffRing →
      p.HasIdentifiers rationals.toCoeffRing → q.HasIdentifiers rationals.toCoeffRing →
      p.render Rationals.render = q.render Rationals.render → p = q := by
  refine ⟨?_, ?_⟩
  · intro p q hp hq hpnames hqnames h
    exact hp.eq_of_render_eq writesNumerals_integers hq hpnames hqnames h
  · intro p q hp hq hpnames hqnames h
    exact hp.eq_of_render_eq writesNumerals_rationals hq hpnames hqnames h

/-- Two ways to the same text, over both rings, with signs, unit coefficients and a fraction. -/
theorem render_unambiguous_sum_and_multiple :
    let x : Symbol := ⟨"x_1"⟩
    let square : Monomial := Monomial.one.withExponent x 2
    let xy : Monomial := (Monomial.ofSymbol x).withExponent ⟨"y2"⟩ 1
    let Q := rationals.toCoeffRing
    let p : Poly Int := ofTerms integers [(square, -1), (xy, 1), (.one, -12)]
    let q : Poly Int := add integers (ofTerms integers [(.one, -10), (square, 2)])
      (ofTerms integers [(xy, 1), (square, -3), (.one, -2)])
    let r : Poly Rat := ofTerms Q [(xy, 2 / 3), (square, -1), (.one, 1)]
    let s : Poly Rat := scale Q (ofTerms Q [(.one, 3), (square, -3), (xy, 2)]) (1 / 3)
    (p.Canonical integers ∧ q.Canonical integers ∧ p.HasIdentifiers integers ∧
      q.HasIdentifiers integers ∧ p.render Integers.render = "-x_1^2 + x_1*y2 - 12" ∧
      q.render Integers.render = "-x_1^2 + x_1*y2 - 12" ∧ p = q) ∧
    r.Canonical Q ∧ s.Canonical Q ∧ r.HasIdentifiers Q ∧ s.HasIdentifiers Q ∧
      r.render Rationals.render = "-x_1^2 + 2/3*x_1*y2 + 1" ∧
      s.render Rationals.render = "-x_1^2 + 2/3*x_1*y2 + 1" ∧ r = s := by
  intro x square xy Q p q r s
  let ts : List (Monomial × Int) := [(square, -1), (xy, 1), (.one, -12)]
  let us : List (Monomial × Rat) := [(square, -1), (xy, 2 / 3), (.one, 1)]
  have hts : InGradedOrder ts := by decide +kernel
  have hus : InGradedOrder us := by decide +kernel
  have hintegers : renderTerms Integers.render ts = "-x_1^2 + x_1*y2 - 12" := by decide +kernel
  have hfractions : renderTerms Rationals.render us = "-x_1^2 + 2/3*x_1*y2 + 1" := by decide +kernel
  have hp : p.Lists ts := lists_iff_perm.2 (by decide +kernel)
  have hq : q.Lists ts := lists_iff_perm.2 (by decide +kernel)
  have hr : r.Lists us := lists_iff_perm.2 (by decide +kernel)
  have hs : s.Lists us := lists_iff_perm.2 (by decide +kernel)
  have hptext := (hp.render_eq hts Integers.render).trans hintegers
  have hqtext := (hq.render_eq hts Integers.render).trans hintegers
  have hrtext := (hr.render_eq hus Rationals.render).trans hfractions
  have hstext := (hs.render_eq hus Rationals.render).trans hfractions
  have hcanonical : p.Canonical integers ∧ q.Canonical integers ∧ r.Canonical Q ∧ s.Canonical Q := by
    decide +kernel
  have hnames : p.HasIdentifiers integers ∧ q.HasIdentifiers integers ∧ r.HasIdentifiers Q ∧
      s.HasIdentifiers Q := by
    decide +kernel
  rcases render_unambiguous with ⟨hequal, hequal'⟩
  rcases hcanonical with ⟨hp, hq, hr, hs⟩
  rcases hnames with ⟨hpnames, hqnames, hrnames, hsnames⟩
  exact ⟨⟨hp, hq, hpnames, hqnames, hptext, hqtext,
      hequal p q hp hq hpnames hqnames (hptext.trans hqtext.symm)⟩,
    hr, hs, hrnames, hsnames, hrtext, hstext,
    hequal' r s hr hs hrnames hsnames (hrtext.trans hstext.symm)⟩

end Poly

end SymbolicPoly
