import Mathlib.Data.List.Perm.Basic

/-!
# Outcome — what it says that a computation returned a value

Products, powers and compositions of polynomials can fail. Their theory starts from a run that
returned a value and takes it apart:

* `bind_eq_ok_iff` and `map_eq_ok_iff` for one step after another;
* `mapM_eq_ok_iff` and `exists_mapM_eq_ok_iff` for a computation on each member of a list, which does
  not depend on the order of the members (`exists_mapM_perm`);
* `foldlM_ok_induction` for a loop over a list, with an invariant on what has been read;
* `exists_foldlM_eq_ok` to see that such a loop returns, with an invariant on what is left to read, and
  `exists_foldlM_eq_ok_iff` where the steps can be looked at one by one;
* `foldlM_eq_error_iff` for the failure of a loop over a sorted list: it is that of the first member that
  fails.
-/

namespace SymbolicPoly

namespace Outcome

universe u v w

variable {ε : Type w} {α : Type u} {β : Type v} {γ : Type u}

theorem exists_eq_ok_of_isOk {x : Except ε α} (h : x.isOk = true) : ∃ a, x = .ok a := by
  cases x with
  | error e =>
      cases h
  | ok a =>
      exact ⟨a, rfl⟩

/-- A view of the result shows that there is one. -/
theorem exists_eq_ok_of_toOption_map {x : Except ε α} {f : α → β} {b : β}
    (h : x.toOption.map f = some b) : ∃ a, x = .ok a ∧ f a = b := by
  cases x with
  | error e =>
      cases h
  | ok a =>
      exact ⟨a, rfl, Option.some.inj h⟩

theorem bind_eq_ok_iff {x : Except ε α} {f : α → Except ε γ} {c : γ} :
    (x >>= f) = .ok c ↔ ∃ a, x = .ok a ∧ f a = .ok c := by
  cases x with
  | error e =>
      simp [bind, Except.bind]
  | ok a =>
      simp [bind, Except.bind]

theorem map_eq_ok_iff {x : Except ε α} {f : α → β} {b : β} :
    x.map f = .ok b ↔ ∃ a, x = .ok a ∧ f a = b := by
  cases x with
  | error e =>
      simp [Except.map]
  | ok a =>
      simp [Except.map]

theorem bind_pure_eq_error_iff {x : Except ε α} {f : α → γ} {e : ε} :
    (x >>= fun a => pure (f a)) = .error e ↔ x = .error e := by
  cases x with
  | error e' =>
      simp [bind, Except.bind]
  | ok a =>
      simp [bind, Except.bind, pure, Except.pure]

theorem exists_eq_error_iff {x : Except ε β} : (∃ e, x = .error e) ↔ ¬ ∃ b, x = .ok b := by
  cases x with
  | error e =>
      simp
  | ok b =>
      simp

/-! ## Computations on each member of a list -/

theorem mapM_eq_ok_iff {f : β → Except ε α} {xs : List β} {ys : List α} :
    xs.mapM f = .ok ys ↔ List.Forall₂ (fun x y => f x = .ok y) xs ys := by
  induction xs generalizing ys with
  | nil =>
      simp [pure, Except.pure, eq_comm]
  | cons x xs ih =>
      cases ys with
      | nil =>
          simp [bind_eq_ok_iff, pure, Except.pure]
      | cons y ys =>
          simp [bind_eq_ok_iff, pure, Except.pure, ih]

theorem exists_of_mem_mapM {f : β → Except ε α} {xs : List β} {ys : List α}
    (h : xs.mapM f = .ok ys) {y : α} (hy : y ∈ ys) : ∃ x ∈ xs, f x = .ok y := by
  induction mapM_eq_ok_iff.1 h with
  | nil =>
      cases hy
  | @cons x z xs zs hhead htail ih =>
      rcases List.mem_cons.1 hy with rfl | hrest
      · exact ⟨x, List.mem_cons_self, hhead⟩
      · rcases ih (mapM_eq_ok_iff.2 htail) hrest with ⟨x', hx', hy'⟩
        exact ⟨x', List.mem_cons_of_mem x hx', hy'⟩

theorem exists_mapM_eq_ok_iff {f : β → Except ε α} {xs : List β} :
    (∃ ys, xs.mapM f = .ok ys) ↔ ∀ x ∈ xs, ∃ y, f x = .ok y := by
  induction xs with
  | nil =>
      simp [pure, Except.pure]
  | cons x xs ih =>
      simp only [List.mapM_cons, bind_eq_ok_iff, List.forall_mem_cons, ← ih]
      constructor
      · rintro ⟨ys, y, hy, zs, hzs, -⟩
        exact ⟨⟨y, hy⟩, zs, hzs⟩
      · rintro ⟨⟨y, hy⟩, zs, hzs⟩
        exact ⟨y :: zs, y, hy, zs, hzs, rfl⟩

/-- The members of a list may be taken in another order. -/
theorem exists_mapM_perm {f : β → Except ε α} {xs xs' : List β} {ys : List α} (hperm : xs.Perm xs')
    (h : xs.mapM f = .ok ys) : ∃ ys', xs'.mapM f = .ok ys' ∧ ys'.Perm ys := by
  rcases List.perm_comp_forall₂ hperm.symm (mapM_eq_ok_iff.1 h) with ⟨ys', hys', hperm'⟩
  exact ⟨ys', mapM_eq_ok_iff.2 hys', hperm'⟩

/-- A computation on all members of some lists, one list after the other. -/
theorem mapM_flatMap {δ : Type u} {g : δ → List β} {f : β → Except ε α} (ds : List δ) :
    (ds.flatMap g).mapM f = (ds.mapM fun d => (g d).mapM f).map List.flatten := by
  induction ds with
  | nil =>
      rfl
  | cons d ds ih =>
      rw [List.flatMap_cons, List.mapM_append, List.mapM_cons, ih]
      cases (g d).mapM f with
      | error e =>
          rfl
      | ok ys =>
          cases ds.mapM fun d => (g d).mapM f <;> rfl

/-! ## Loops -/

/-- An invariant between the part of the list that has been read and the state of the loop. -/
theorem foldlM_ok_induction {op : α → β → Except ε α} {motive : List β → α → Prop} {init : α}
    (nil : motive [] init)
    (step : ∀ {done t acc next}, motive done acc → op acc t = .ok next → motive (done ++ [t]) next)
    {ts : List β} {result : α} (h : ts.foldlM op init = .ok result) : motive ts result := by
  -- The loop is followed from any point of the list on, with what is read in front of it.
  suffices hrun : ∀ {done acc}, motive done acc → ts.foldlM op acc = .ok result →
      motive (done ++ ts) result from by
    simpa using hrun nil h
  clear h
  induction ts with
  | nil =>
      intro done acc hacc h
      cases h
      simpa using hacc
  | cons t ts ih =>
      intro done acc hacc h
      rcases bind_eq_ok_iff.1 h with ⟨next, hnext, hrest⟩
      have hmotive := ih (step hacc hnext) hrest
      simpa using hmotive

/-- A loop succeeds if a relation between its state and what is left to read makes each step succeed
and is kept. -/
theorem exists_foldlM_eq_ok {op : α → β → Except ε α} {motive : α → List β → Prop}
    (step : ∀ {acc t rest}, motive acc (t :: rest) → ∃ next, op acc t = .ok next ∧ motive next rest)
    {ts : List β} {init : α} (start : motive init ts) :
    ∃ result, ts.foldlM op init = .ok result ∧ motive result [] := by
  induction ts generalizing init with
  | nil =>
      exact ⟨init, rfl, start⟩
  | cons t ts ih =>
      rcases step start with ⟨next, hnext, hmotive⟩
      rcases ih hmotive with ⟨result, hrun, hresult⟩
      exact ⟨result, bind_eq_ok_iff.2 ⟨next, hnext, hrun⟩, hresult⟩

/-- If the state does not decide whether a step succeeds, a loop succeeds exactly if each step does. -/
theorem exists_foldlM_eq_ok_iff {op : α → β → Except ε α} {succeeds : β → Prop}
    (h : ∀ acc t, (∃ next, op acc t = .ok next) ↔ succeeds t) {ts : List β} {init : α} :
    (∃ result, ts.foldlM op init = .ok result) ↔ ∀ t ∈ ts, succeeds t := by
  induction ts generalizing init with
  | nil =>
      simp [pure, Except.pure]
  | cons t ts ih =>
      rw [List.forall_mem_cons, ← h init t, List.foldlM_cons]
      cases op init t with
      | error e =>
          simp [bind, Except.bind]
      | ok next =>
          simpa [bind, Except.bind] using ih

/-- If the state does not decide how a step fails, a loop over a sorted list fails as the member does
before which no other one fails. -/
theorem foldlM_eq_error_iff {op : α → β → Except ε α} {fails : β → ε → Prop}
    (h : ∀ acc t e, op acc t = .error e ↔ fails t e) {before : β → β → Prop}
    (hasymm : ∀ {t u}, before t u → ¬ before u t) {ts : List β} (hts : ts.Pairwise before) {init : α}
    {e : ε} :
    ts.foldlM op init = .error e ↔
      ∃ t ∈ ts, fails t e ∧ ∀ u ∈ ts, before u t → ∀ e', ¬ fails u e' := by
  induction ts generalizing init with
  | nil =>
      simp [pure, Except.pure]
  | cons t ts ih =>
      rcases List.pairwise_cons.1 hts with ⟨hfirst, htail⟩
      rw [List.foldlM_cons]
      cases hop : op init t with
      | error e₀ =>
          -- The loop ends here, and nothing in the list is before its head.
          have hfails : fails t e₀ := (h init t e₀).1 hop
          show Except.error e₀ = .error e ↔ _
          constructor
          · rintro ⟨⟩
            refine ⟨t, List.mem_cons_self, hfails, ?_⟩
            intro u hu hut
            rcases List.mem_cons.1 hu with rfl | hu
            · exact absurd hut (hasymm hut)
            · exact absurd hut (hasymm (hfirst u hu))
          · rintro ⟨u, hu, hufails, hnone⟩
            rcases List.mem_cons.1 hu with rfl | hu
            · exact hop.symm.trans ((h init u e).2 hufails)
            · exact absurd hfails (hnone t List.mem_cons_self (hfirst u hu) e₀)
      | ok next =>
          have hsucceeds : ∀ e', ¬ fails t e' := by
            intro e' hfails
            cases hop.symm.trans ((h init t e').2 hfails)
          show ts.foldlM op next = .error e ↔ _
          rw [ih htail]
          constructor
          · rintro ⟨u, hu, hufails, hnone⟩
            refine ⟨u, List.mem_cons_of_mem t hu, hufails, ?_⟩
            intro v hv hvu
            rcases List.mem_cons.1 hv with rfl | hv
            · exact hsucceeds
            · exact hnone v hv hvu
          · rintro ⟨u, hu, hufails, hnone⟩
            rcases List.mem_cons.1 hu with rfl | hu
            · exact absurd hufails (hsucceeds e)
            · exact ⟨u, hu, hufails, fun v hv => hnone v (List.mem_cons_of_mem t hv)⟩

end Outcome

end SymbolicPoly
