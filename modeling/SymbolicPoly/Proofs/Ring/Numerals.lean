import Std.Data.String.ToNat
import SymbolicPoly.Poly.Text
import SymbolicPoly.Proofs.Delimited
import SymbolicPoly.Ring.Rationals

/-!
# Numerals — how integers and rationals are written

A numeral is written with digits, and a bar in fractions. In front of it stands a minus sign if the
number is negative, so the sign can be split off again (`splitSign_signed`). Texts of this form, no two
of which are alike, are what `WritesNumerals` asks for, and what the integers and the rationals have.
-/

namespace SymbolicPoly

universe u

/-! ## Digits -/

/-- Digits, and bars of fractions. -/
structure IsNumeral (s : String) : Prop where
  ne_empty : s ≠ ""
  mem_toList : ∀ c ∈ s.toList, c.isDigit = true ∨ c = '/'

theorem isDigit_of_mem_repr {n : Nat} {c : Char} (h : c ∈ n.repr.toList) : c.isDigit = true := by
  rw [Nat.toList_repr] at h
  exact Nat.isDigit_of_mem_toDigits (by decide) (by decide) h

theorem repr_ne_empty (n : Nat) : n.repr ≠ "" := by
  intro h
  have hdigits : Nat.toDigits 10 n = [] := by rw [← Nat.toList_repr, h]; rfl
  exact Nat.toDigits_ne_nil hdigits

theorem delimited_repr : Delimited Nat.repr (fun _ => True) (fun c => c.isDigit = false) := by
  refine delimited_of_forall_mem (fun _ _ => Nat.repr_injective) ?_
  intro n _ c hc
  simp [isDigit_of_mem_repr hc]

/-- A number behind a mark. Nothing is written for the number one. -/
def writeMarked (mark : Char) (n : Nat) : String :=
  if n = 1 then "" else String.singleton mark ++ n.repr

theorem ends_writeMarked {mark : Char} {stop : Char → Prop} (hmark : stop mark) (n : Nat) :
    Ends stop (writeMarked mark n).toList := by
  unfold writeMarked
  split
  · exact ends_nil
  · simpa using hmark

theorem delimited_writeMarked (mark : Char) :
    Delimited (writeMarked mark) (fun _ => True) (fun c => c.isDigit = false ∧ c ≠ mark) := by
  -- What comes behind is not the mark, so it can be told from a number.
  have hmark : ∀ {rest : List Char}, Ends (fun c => c.isDigit = false ∧ c ≠ mark) rest →
      ∀ text, rest ≠ mark :: text :=
    fun hrest text => hrest.ne_cons (fun h => h.2 rfl) text
  refine ⟨?_⟩
  intro n n' rest rest' _ _ hrest hrest' heq
  by_cases hn : n = 1 <;> by_cases hn' : n' = 1
  · exact ⟨hn.trans hn'.symm, by simpa [writeMarked, hn, hn'] using heq⟩
  · exact absurd (by simpa [writeMarked, hn, hn'] using heq) (hmark hrest _)
  · exact absurd (by simpa [writeMarked, hn, hn'] using heq.symm) (hmark hrest' _)
  · have hdigits : n.repr.toList ++ rest = n'.repr.toList ++ rest' := by
      simpa [writeMarked, hn, hn'] using heq
    exact (delimited_repr.mono fun _ hc => hc.1).eq_and_eq trivial trivial hrest hrest' hdigits

/-! ## Signs -/

def signed (negative : Bool) (numeral : String) : String :=
  if negative then "-" ++ numeral else numeral

theorem splitSign_signed {s : String} (hs : IsNumeral s) (negative : Bool) :
    Poly.splitSign (signed negative s) = (negative, s) := by
  cases negative with
  | true =>
      simp [Poly.splitSign, signed]
  | false =>
      -- A numeral does not begin with the sign itself.
      cases hchars : s.toList with
      | nil =>
          simp [Poly.splitSign, signed, hchars]
      | cons c cs =>
          have hc : c ≠ '-' := by
            rintro rfl
            have hmem := hs.mem_toList '-' (by simp [hchars])
            revert hmem
            decide
          simp [Poly.splitSign, signed, hchars, hc]

/-- A text is known from its sign and what follows it. -/
theorem signed_splitSign (s : String) :
    signed (Poly.splitSign s).1 (Poly.splitSign s).2 = s := by
  unfold Poly.splitSign
  split
  · rename_i rest h
    refine String.toList_inj.1 ?_
    simp [signed, h]
  · rfl

/-- Coefficients are written as numerals, with a sign in front of some, and no two of them alike. -/
structure WritesNumerals {R : Type u} (K : CoeffRing R) (text : R → String) : Prop where
  text_inj : ∀ {a b}, text a = text b → a = b
  isNumeral : ∀ a, IsNumeral (Poly.splitSign (text a)).2
  text_zero : text K.zero = "0"

theorem writesNumerals_of_signed {R : Type u} {K : CoeffRing R} {text : R → String}
    (negative : R → Bool) (numeral : R → String)
    (htext : ∀ a, text a = signed (negative a) (numeral a)) (hnumeral : ∀ a, IsNumeral (numeral a))
    (hinj : ∀ {a b}, negative a = negative b → numeral a = numeral b → a = b)
    (hzero : text K.zero = "0") : WritesNumerals K text := by
  have hsplit : ∀ a, Poly.splitSign (text a) = (negative a, numeral a) := by
    intro a
    rw [htext, splitSign_signed (hnumeral a)]
  refine ⟨?_, ?_, hzero⟩
  · intro a b h
    rcases Prod.mk.inj ((hsplit a).symm.trans (h ▸ hsplit b)) with ⟨hnegative, hnumeral⟩
    exact hinj hnegative hnumeral
  · intro a
    rw [hsplit]
    exact hnumeral a

/-! ## Integers and rationals -/

theorem isNumeral_repr (n : Nat) : IsNumeral n.repr :=
  ⟨repr_ne_empty n, fun _ hc => .inl (isDigit_of_mem_repr hc)⟩

theorem writesNumerals_integers : WritesNumerals integers Integers.render := by
  refine writesNumerals_of_signed (fun a => decide (a < 0)) (fun a => a.natAbs.repr) ?_
    (fun a => isNumeral_repr a.natAbs) ?_ rfl
  · intro a
    simp [Integers.render, signed]
  · intro a b hnegative hnumeral
    have hsize : a.natAbs = b.natAbs := Nat.repr_injective hnumeral
    have hsign : a < 0 ↔ b < 0 := by simpa using hnegative
    omega

/-- Numerator and denominator of a fraction, or the numerator alone. -/
theorem delimited_fraction :
    Delimited (fun t : Nat × Nat => t.1.repr ++ writeMarked '/' t.2) (fun _ => True ∧ True)
      (fun c => c.isDigit = false ∧ c ≠ '/') :=
  delimited_repr.append (delimited_writeMarked '/') fun {n rest} _ hrest =>
    (ends_writeMarked (by decide) n).append (hrest.mono fun _ hc => hc.1)

theorem isNumeral_fraction (n d : Nat) : IsNumeral (n.repr ++ writeMarked '/' d) where
  ne_empty h := repr_ne_empty n (String.append_eq_empty_iff.1 h).1
  mem_toList := by
    intro c hc
    rcases List.mem_append.1 (String.toList_append ▸ hc) with hc | hc
    · exact .inl (isDigit_of_mem_repr hc)
    · unfold writeMarked at hc
      split at hc
      · simp at hc
      · rcases (by simpa using hc : c = '/' ∨ c ∈ d.repr.toList) with hc | hc
        · exact .inr hc
        · exact .inl (isDigit_of_mem_repr hc)

theorem writesNumerals_rationals : WritesNumerals rationals.toCoeffRing Rationals.render := by
  refine writesNumerals_of_signed (fun a => decide (a.num < 0))
    (fun a => a.num.natAbs.repr ++ writeMarked '/' a.den) ?_
    (fun a => isNumeral_fraction a.num.natAbs a.den) ?_ rfl
  · intro a
    by_cases hden : a.den = 1 <;> by_cases hnegative : a.num < 0 <;>
      simp [Rationals.render, Integers.render, signed, writeMarked, hden, hnegative, String.append_assoc]
  · intro a b hnegative hnumeral
    have hsame := delimited_fraction.eq_of_write_eq (a := (a.num.natAbs, a.den))
      (b := (b.num.natAbs, b.den)) ⟨trivial, trivial⟩ ⟨trivial, trivial⟩ hnumeral
    rcases Prod.mk.inj hsame with ⟨hsize, hden⟩
    have hsign : a.num < 0 ↔ b.num < 0 := by simpa using hnegative
    exact Rat.ext (by omega) hden

end SymbolicPoly
