import SymbolicPoly.Monomial.Order
import SymbolicPoly.Monomial.Text
import SymbolicPoly.Proofs.Ring.Numerals

/-!
# Monomial text — monomials can be read from their texts

Any string names a symbol, so the text of a monomial may look like that of another one. It does not if
the names are identifiers: a name ends where its exponent or the next factor begins, and neither `^` nor
`*` is a character of a name. So the text determines the factors (`Monomial.delimited_render`).
-/

namespace SymbolicPoly

/-! ## Identifiers -/

namespace Symbol

def isNameChar (c : Char) : Bool :=
  c.isAlphanum || c == '_'

/-- A letter, and letters, digits and underscores behind it. -/
def isIdentifier (s : Symbol) : Bool :=
  match s.name.toList with
  | [] => false
  | c :: cs => c.isAlpha && cs.all isNameChar

theorem isIdentifier_iff {s : Symbol} :
    s.isIdentifier = true ↔
      ∃ c cs, s.name.toList = c :: cs ∧ c.isAlpha = true ∧ ∀ d ∈ cs, isNameChar d = true := by
  unfold isIdentifier
  cases s.name.toList with
  | nil =>
      simp
  | cons c cs =>
      simp [and_assoc]

theorem isNameChar_of_isAlpha {c : Char} (h : c.isAlpha = true) : isNameChar c = true := by
  simp [isNameChar, Char.isAlphanum, h]

theorem isDigit_eq_false_of_isNameChar {c : Char} (h : isNameChar c = false) : c.isDigit = false := by
  simp only [isNameChar, Char.isAlphanum, Bool.or_eq_false_iff] at h
  exact h.1.2

theorem isNameChar_of_mem_name {s : Symbol} (hs : s.isIdentifier = true) :
    ∀ c ∈ s.name.toList, isNameChar c = true := by
  rcases isIdentifier_iff.1 hs with ⟨c, cs, hname, hc, hcs⟩
  rw [hname]
  exact List.forall_mem_cons.2 ⟨isNameChar_of_isAlpha hc, hcs⟩

theorem name_injective {s t : Symbol} (h : s.name = t.name) : s = t := by
  cases s
  cases t
  exact congrArg Symbol.mk h

theorem delimited_name :
    Delimited name (fun s => s.isIdentifier = true) (fun c => isNameChar c = false) := by
  refine delimited_of_forall_mem (fun _ _ => name_injective) ?_
  intro s hs c hc
  simp [isNameChar_of_mem_name hs c hc]

end Symbol

/-! ## Factors -/

namespace Monomial

theorem renderFactor_eq (f : Symbol × UInt32) :
    renderFactor f = f.1.name ++ writeMarked '^' f.2.toNat := by
  have hone : f.2.toNat = 1 ↔ f.2 = 1 := by
    rw [← UInt32.toNat_inj]
    rfl
  by_cases h : f.2 = 1
  · simp [renderFactor, writeMarked, h]
  · simp [renderFactor, writeMarked, hone, h, String.append_assoc]

/-- What ends a factor. -/
abbrev EndsFactor (c : Char) : Prop :=
  Symbol.isNameChar c = false ∧ c ≠ '^'

theorem delimited_renderFactor :
    Delimited renderFactor (fun f => f.1.isIdentifier = true) EndsFactor := by
  have hexponent : Delimited (writeMarked '^') (fun _ => True) EndsFactor :=
    (delimited_writeMarked '^').mono fun _ hc => ⟨Symbol.isDigit_eq_false_of_isNameChar hc.1, hc.2⟩
  have hpair := Symbol.delimited_name.append hexponent fun {n rest} _ hrest =>
    (ends_writeMarked (by decide) n).append (hrest.mono fun _ hc => hc.1)
  have hsame : ∀ {f g : Symbol × UInt32}, (f.1, f.2.toNat) = (g.1, g.2.toNat) → f = g := by
    intro f g h
    rcases Prod.mk.inj h with ⟨hsymbol, hexponent⟩
    exact Prod.ext hsymbol (UInt32.toNat_inj.1 hexponent)
  exact (hpair.comp (fun f : Symbol × UInt32 => (f.1, f.2.toNat)) hsame).congr
    (fun hf => ⟨hf, trivial⟩) fun {f} _ => renderFactor_eq f

/-! ## Monomials -/

/-- The symbols that occur have identifiers as names. -/
def HasIdentifiers (m : Monomial) : Prop :=
  ∀ s ∈ m.vars, s.isIdentifier = true

theorem hasIdentifiers_one : one.HasIdentifiers := by
  simp [HasIdentifiers, vars, one]

/-- The text of a monomial with factors determines it, if the names of its symbols are identifiers. -/
theorem delimited_render :
    Delimited render (fun m => m.isOne = false ∧ m.HasIdentifiers) (· = ' ') := by
  have hsep : ∀ f : Symbol × UInt32, ("*" ++ renderFactor f).toList.head? = some '*' := by
    simp
  have hlist : Delimited (writeSequence renderFactor fun f => "*" ++ renderFactor f)
      (fun fs => fs ≠ [] ∧ ∀ f ∈ fs, f.1.isIdentifier = true) (· = ' ') :=
    delimited_renderFactor.writeSequence (delimited_renderFactor.behind "*") hsep (by decide)
      (by decide) (by rintro _ rfl; decide)
  refine (hlist.comp factors ext_factors).congr ?_ ?_
  · rintro m ⟨hone, hvars⟩
    refine ⟨by simpa [isOne] using hone, ?_⟩
    intro f hf
    exact hvars f.1 (List.mem_map_of_mem hf)
  · rintro m ⟨hone, -⟩
    rw [render, hone, if_neg Bool.false_ne_true, intercalate_map]

-- A name that is no identifier can look like a product.
example : (ofSymbol ⟨"x*y"⟩).render = ((ofSymbol ⟨"x"⟩).withExponent ⟨"y"⟩ 1).render := by
  decide

/-- The text begins with a letter. -/
theorem exists_render_eq_cons {m : Monomial} (hone : m.isOne = false) (hm : m.HasIdentifiers) :
    ∃ c cs, m.render.toList = c :: cs ∧ c.isAlpha = true := by
  cases hfactors : m.factors with
  | nil =>
      simp [isOne, hfactors] at hone
  | cons f fs =>
      have hf : f.1.isIdentifier = true := hm f.1 (by simp [vars, hfactors])
      rcases Symbol.isIdentifier_iff.1 hf with ⟨c, cs, hname, hc, -⟩
      refine ⟨c, cs ++ ((writeMarked '^' f.2.toNat).toList ++
        (String.join (fs.map fun f => "*" ++ renderFactor f)).toList), ?_, hc⟩
      rw [render, hone, if_neg Bool.false_ne_true, intercalate_map, hfactors, writeSequence,
        renderFactor_eq, String.toList_append, String.toList_append, hname, List.append_assoc,
        List.cons_append]

end Monomial

end SymbolicPoly
