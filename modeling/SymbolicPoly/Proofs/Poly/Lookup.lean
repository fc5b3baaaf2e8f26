import Mathlib.Data.List.Forall2
import Mathlib.Data.List.Nodup
import SymbolicPoly.Poly.Arithmetic
import SymbolicPoly.Proofs.Monomial.Finsupp
import SymbolicPoly.Proofs.Outcome

/-!
# Lookup — what is stored after an operation

One equation for `coefficient?` for each operation that works on the stored map. None of them needs
a law of the ring: they say which coefficients are stored, zeros among them.

`addCoefficient` is the step of sums and differences, `collectTerm` the step of the constructors and
of products.

The stored terms are met in some order. A list of them in any order is what `Lists` describes: two such
lists are permutations of each other (`Lists.perm`), and one of them says all that is stored
(`Lists.coefficient?_eq`).
-/

namespace SymbolicPoly

namespace Poly

universe u

variable {R : Type u} {p : Poly R} {m m' : Monomial} {c : R}

/-! ## Stored terms -/

theorem mem_toList_iff : (m, c) ∈ p.toList ↔ p.coefficient? m = some c :=
  Std.ExtTreeMap.mem_toList_iff_getElem?_eq_some

theorem coefficient?_eq_none_iff : p.coefficient? m = none ↔ m ∉ p.toList.map Prod.fst := by
  simp [Option.eq_none_iff_forall_ne_some, mem_toList_iff]

theorem nodup_keys_toList (p : Poly R) : (p.toList.map Prod.fst).Nodup := by
  have hdistinct := Std.ExtTreeMap.distinct_keys_toList (t := p.terms)
  refine List.pairwise_map.2 (hdistinct.imp ?_)
  intro t t' hne heq
  exact hne (Std.LawfulEqCmp.compare_eq_iff_eq.2 heq)

theorem gradedTerms_perm (p : Poly R) : p.gradedTerms.Perm p.toList :=
  List.mergeSort_perm p.toList _

theorem toList_empty : (∅ : Poly R).toList = [] :=
  Std.ExtTreeMap.toList_eq_nil_iff.2 rfl

@[simp]
theorem coefficient?_empty (m : Monomial) : (∅ : Poly R).coefficient? m = none :=
  Std.ExtTreeMap.getElem?_empty

theorem eq_empty_iff : p = ∅ ↔ ∀ m, p.coefficient? m = none := by
  constructor
  · rintro rfl m
    exact coefficient?_empty m
  · intro h
    exact ext_coefficient? fun m => (h m).trans (coefficient?_empty m).symm

theorem isEmpty_eq_true_iff : p.isEmpty = true ↔ p = ∅ := by
  refine Std.ExtTreeMap.isEmpty_iff.trans ?_
  cases p
  exact ⟨fun h => congrArg Poly.mk h, fun h => congrArg Poly.terms h⟩

theorem isEmpty_eq_false_iff : p.isEmpty = false ↔ p ≠ ∅ := by
  rw [← Bool.not_eq_true, isEmpty_eq_true_iff]

/-- Of terms with distinct monomials each one is stored, and nothing else. -/
theorem coefficient?_ofStoredTerms_eq_some_iff {ts : List (Monomial × R)}
    (h : (ts.map Prod.fst).Nodup) : (ofStoredTerms ts).coefficient? m = some c ↔ (m, c) ∈ ts := by
  have hdistinct : ts.Pairwise fun t t' => ¬ compare t.1 t'.1 = .eq := by
    refine (List.pairwise_map.1 h).imp ?_
    intro t t' hne heq
    exact hne (Std.LawfulEqCmp.compare_eq_iff_eq.1 heq)
  have hstored : ∀ {d}, (m, d) ∈ ts → (ofStoredTerms ts).coefficient? m = some d := by
    intro d hd
    exact Std.ExtTreeMap.getElem?_ofList_of_mem Std.ReflCmp.compare_self hdistinct hd
  constructor
  · intro hc
    by_cases hm : m ∈ ts.map Prod.fst
    · rcases List.mem_map.1 hm with ⟨t, ht, rfl⟩
      have hd := hstored (show (t.1, t.2) ∈ ts from ht)
      cases hd.symm.trans hc
      exact ht
    · have hnone : (ofStoredTerms ts).coefficient? m = none :=
        Std.ExtTreeMap.getElem?_ofList_of_contains_eq_false (by simpa using hm)
      cases hnone.symm.trans hc
  · exact hstored

theorem toList_ofStoredTerms_perm {ts : List (Monomial × R)} (h : (ts.map Prod.fst).Nodup) :
    (ofStoredTerms ts).toList.Perm ts := by
  refine (List.perm_ext_iff_of_nodup (nodup_keys_toList _).of_map h.of_map).2 ?_
  rintro ⟨m, c⟩
  rw [mem_toList_iff, coefficient?_ofStoredTerms_eq_some_iff h]

/-! ## Lists of the stored terms -/

/-- Each stored term occurs once in the list and nothing else does. The order is open. -/
structure Lists (p : Poly R) (ts : List (Monomial × R)) : Prop where
  nodup : ts.Nodup
  mem_iff : ∀ {m c}, (m, c) ∈ ts ↔ p.coefficient? m = some c

theorem lists_toList (p : Poly R) : p.Lists p.toList where
  nodup := (nodup_keys_toList p).of_map
  mem_iff := mem_toList_iff

/-- What is listed determines what is stored. -/
theorem Lists.coefficient?_eq {q : Poly R} {ts : List (Monomial × R)} (hp : p.Lists ts)
    (hq : q.Lists ts) (m : Monomial) : p.coefficient? m = q.coefficient? m :=
  Option.ext fun _ => hp.mem_iff.symm.trans hq.mem_iff

theorem Lists.of_coefficient?_eq {q : Poly R} {ts : List (Monomial × R)} (h : q.Lists ts)
    (hsame : ∀ m, q.coefficient? m = p.coefficient? m) : p.Lists ts where
  nodup := h.nodup
  mem_iff := by
    intro m c
    rw [h.mem_iff, hsame m]

/-- Two lists of the stored terms differ in their order alone. -/
theorem Lists.perm {ts us : List (Monomial × R)} (hts : p.Lists ts) (hus : p.Lists us) :
    ts.Perm us := by
  refine (List.perm_ext_iff_of_nodup hts.nodup hus.nodup).2 ?_
  rintro ⟨m, c⟩
  rw [hts.mem_iff, hus.mem_iff]

theorem Lists.of_perm {ts us : List (Monomial × R)} (h : p.Lists ts) (hperm : us.Perm ts) :
    p.Lists us where
  nodup := hperm.nodup_iff.2 h.nodup
  mem_iff := hperm.mem_iff.trans h.mem_iff

theorem lists_iff_perm {ts : List (Monomial × R)} : p.Lists ts ↔ ts.Perm p.toList :=
  ⟨fun h => h.perm (lists_toList p), (lists_toList p).of_perm⟩

theorem Lists.nodup_keys {ts : List (Monomial × R)} (h : p.Lists ts) : (ts.map Prod.fst).Nodup :=
  ((lists_iff_perm.1 h).map Prod.fst).nodup_iff.2 (nodup_keys_toList p)

theorem lists_ofStoredTerms {ts : List (Monomial × R)} (h : (ts.map Prod.fst).Nodup) :
    (ofStoredTerms ts).Lists ts :=
  lists_iff_perm.2 (toList_ofStoredTerms_perm h).symm

/-! ## Steps of sums -/

theorem coefficient?_addCoefficient (K : CoeffRing R) (p : Poly R) (m : Monomial) (c : R)
    (m' : Monomial) :
    (p.addCoefficient K m c).coefficient? m' =
      if m = m' then
        match p.coefficient? m with
        | some d => if K.isZero (K.add d c) then none else some (K.add d c)
        | none => some c
      else p.coefficient? m' :=
  Std.ExtTreeMap.getElem?_alter.trans (if_congr Std.LawfulEqCmp.compare_eq_iff_eq rfl rfl)

/-- A sum stores nothing where nothing was stored and nothing is added. -/
theorem coefficient?_foldl_addCoefficient_eq_none (K : CoeffRing R) {ts : List (Monomial × R)}
    (hp : p.coefficient? m = none) (hts : m ∉ ts.map Prod.fst) :
    (ts.foldl (fun acc t => addCoefficient K acc t.1 t.2) p).coefficient? m = none := by
  induction ts generalizing p with
  | nil =>
      exact hp
  | cons t ts ih =>
      rw [List.map_cons, List.mem_cons, not_or] at hts
      refine ih ?_ hts.2
      rw [coefficient?_addCoefficient, if_neg (Ne.symm hts.1), hp]

theorem coefficient?_collectTerm (K : CoeffRing R) (p : Poly R) (m : Monomial) (c : R)
    (m' : Monomial) :
    (Poly.mk (collectTerm K p.terms m c)).coefficient? m' =
      if m = m' then
        match p.coefficient? m with
        | some d => some (K.add d c)
        | none => some c
      else p.coefficient? m' :=
  Std.ExtTreeMap.getElem?_alter.trans (if_congr Std.LawfulEqCmp.compare_eq_iff_eq rfl rfl)

/-! ## Operations on the whole map -/

@[simp]
theorem coefficient?_neg (K : CoeffRing R) (p : Poly R) (m : Monomial) :
    (p.neg K).coefficient? m = (p.coefficient? m).map K.neg := by
  simp [coefficient?, neg]

/-- The terms collected by `ofTerms`, before zeros are dropped. -/
def collect (K : CoeffRing R) (ts : List (Monomial × R)) : Poly R :=
  ⟨ts.foldl (fun acc t => collectTerm K acc t.1 t.2) ∅⟩

theorem coefficient?_ofTerms (K : CoeffRing R) (ts : List (Monomial × R)) (m : Monomial) :
    (ofTerms K ts).coefficient? m = ((collect K ts).coefficient? m).filter fun c => !K.isZero c :=
  Std.ExtTreeMap.getElem?_filter'

theorem coefficient?_scale (K : CoeffRing R) (p : Poly R) (c : R) (m : Monomial) :
    (p.scale K c).coefficient? m =
      if K.isZero c then none
      else if K.isOne c then p.coefficient? m
      else (p.coefficient? m).bind fun a =>
        if K.isZero (K.mul a c) then none else some (K.mul a c) := by
  unfold scale
  split_ifs
  · exact coefficient?_empty m
  · rfl
  · exact Std.ExtTreeMap.getElem?_filterMap'

theorem coefficient?_monomial (K : CoeffRing R) (m : Monomial) (c : R) (m' : Monomial) :
    (monomial K m c).coefficient? m' =
      if K.isZero c then none else if m = m' then some c else none := by
  unfold monomial
  split_ifs with hzero hm
  · exact coefficient?_empty m'
  · simp [coefficient?, hm]
  · simp [coefficient?, hm]

/-! ## Multiplication by a symbol -/

theorem mulTermSymbol_eq_ok {s : Symbol} {t u : Monomial × R} (h : mulTermSymbol s t = .ok u) :
    u.1.toFinsupp = t.1.toFinsupp + Finsupp.single s 1 ∧ u.2 = t.2 := by
  rcases Outcome.map_eq_ok_iff.1 h with ⟨m, hm, rfl⟩
  exact ⟨Monomial.mulSymbol_eq_ok_iff_toFinsupp.1 hm, rfl⟩

/-- One more factor keeps distinct monomials distinct. -/
theorem nodup_keys_mulTermSymbol {s : Symbol} {ts us : List (Monomial × R)}
    (h : ts.mapM (mulTermSymbol s) = .ok us) (hnodup : (ts.map Prod.fst).Nodup) :
    (us.map Prod.fst).Nodup := by
  -- The new keys are the old ones, each with one more factor `s`.
  have hkeys : (us.map Prod.fst).map Monomial.toFinsupp =
      (ts.map Prod.fst).map fun m => m.toFinsupp + Finsupp.single s 1 := by
    clear hnodup
    induction Outcome.mapM_eq_ok_iff.1 h with
    | nil =>
        simp
    | cons hhead htail ih =>
        simpa [(mulTermSymbol_eq_ok hhead).1] using ih (Outcome.mapM_eq_ok_iff.2 htail)
  have hinjective : Function.Injective fun m : Monomial => m.toFinsupp + Finsupp.single s 1 := by
    intro a b hab
    exact Monomial.toFinsupp_injective (add_right_cancel hab)
  have hfinsupp : ((us.map Prod.fst).map Monomial.toFinsupp).Nodup := by
    rw [hkeys]
    exact hnodup.map hinjective
  exact hfinsupp.of_map _

end Poly

end SymbolicPoly
