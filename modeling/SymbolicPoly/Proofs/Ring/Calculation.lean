import Mathlib.Data.Option.NAry
import SymbolicPoly.Proofs.Ring.CheckedWords

/-!
# Calculation — results modulo a number, whatever is calculated

A calculation begins with words and signed words and goes on with the operations of a field. It can
be carried out over any coefficient field (`Calculation.run`). Over the integers, where nothing is
reduced, it is exact, and powers are `a ^ n` (`unreduced_pow`). The results modulo `m` are compared with
the exact one: in both kinds of residues, and in checked words, every result is the number below `m` that
is congruent to it, and no step fails (`run_modulo`).

The two kinds of residues take the same steps on words, with the modulus in the ring or in the type. One
field of checked words therefore stands for both, and its results are the words of either kind.

A function that commutes with each operation takes the results over one field to those over another
one (`Carries.run`). The images of integers are such a function into every lawful ring, and the
words of residues are one into checked words.
-/

namespace SymbolicPoly

universe u v

inductive Calculation where
  | word (w : UInt64)
  | int (n : Int64)
  | zero
  | one
  | add (x y : Calculation)
  | sub (x y : Calculation)
  | neg (x : Calculation)
  | mul (x y : Calculation)
  | pow (x : Calculation) (n : UInt32)
  | inv (x : Calculation)
  | div (x y : Calculation)

namespace Calculation

/-- The result over `K`. There is none if an inverse is missing. -/
def run {R : Type u} (K : CoeffField R) (ofWord : UInt64 → R) : Calculation → Option R
  | word w => some (ofWord w)
  | int n => some (K.ofInt n.toInt)
  | zero => some K.zero
  | one => some K.one
  | add x y => Option.map₂ K.add (x.run K ofWord) (y.run K ofWord)
  | sub x y => Option.map₂ K.sub (x.run K ofWord) (y.run K ofWord)
  | neg x => (x.run K ofWord).map K.neg
  | mul x y => Option.map₂ K.mul (x.run K ofWord) (y.run K ofWord)
  | pow x n => (x.run K ofWord).map fun a => K.pow a n.toNat
  | inv x => (x.run K ofWord).bind K.inv?
  | div x y => (x.run K ofWord).bind fun a => (y.run K ofWord).bind (K.div? a)

end Calculation

/-- The integers, in which the inverse of a number is that of its remainder modulo `m`. -/
def unreduced (m : Nat) : CoeffField Int where
  toCoeffRing := integers
  inv? k := (modularInverse? (k % m).toNat m).map Int.ofNat

/-- The loop that squares gives the power of the integer. -/
@[simp]
theorem unreduced_pow (m : Nat) (a : Int) (n : Nat) : (unreduced m).pow a n = a ^ n :=
  CoeffRing.Agrees.pow_eq (K := integers) a n

/-- The result as an integer. Only inverses depend on the modulus. -/
def Calculation.exact (m : Nat) (c : Calculation) : Option Int :=
  c.run (unreduced m) fun w => w.toNat

/-! ## Functions that commute with the operations -/

namespace CoeffField

variable {R : Type u} {S : Type v}

structure Carries (K : CoeffField R) (L : CoeffField S) (f : R → S) : Prop where
  zero : f K.zero = L.zero
  one : f K.one = L.one
  add : ∀ a b, f (K.add a b) = L.add (f a) (f b)
  sub : ∀ a b, f (K.sub a b) = L.sub (f a) (f b)
  neg : ∀ a, f (K.neg a) = L.neg (f a)
  mul : ∀ a b, f (K.mul a b) = L.mul (f a) (f b)
  pow : ∀ a n, f (K.pow a n) = L.pow (f a) n
  ofInt : ∀ n : Int64, f (K.ofInt n.toInt) = L.ofInt n.toInt
  inv? : ∀ a, (K.inv? a).map f = L.inv? (f a)
  div? : ∀ a b, (K.div? a b).map f = L.div? (f a) (f b)

variable {K : CoeffField R} {L : CoeffField S} {f : R → S}

/-- Each operation is carried along, so the whole calculation is. -/
theorem Carries.run (h : K.Carries L f) {ofWord : UInt64 → R} {ofWord' : UInt64 → S}
    (hword : ∀ w, f (ofWord w) = ofWord' w) (c : Calculation) :
    (c.run K ofWord).map f = c.run L ofWord' := by
  induction c with
  | word w =>
      exact congrArg some (hword w)
  | int n =>
      exact congrArg some (h.ofInt n)
  | zero =>
      exact congrArg some h.zero
  | one =>
      exact congrArg some h.one
  | add x y ihx ihy =>
      rw [Calculation.run, Option.map_map₂_distrib h.add, ihx, ihy, Calculation.run]
  | sub x y ihx ihy =>
      rw [Calculation.run, Option.map_map₂_distrib h.sub, ihx, ihy, Calculation.run]
  | neg x ih =>
      rw [Calculation.run, Calculation.run, ← ih]
      simp [Function.comp_def, h.neg]
  | mul x y ihx ihy =>
      rw [Calculation.run, Option.map_map₂_distrib h.mul, ihx, ihy, Calculation.run]
  | pow x n ih =>
      rw [Calculation.run, Calculation.run, ← ih]
      simp [Function.comp_def, h.pow]
  | inv x ih =>
      rw [Calculation.run, Calculation.run, ← ih]
      simp [Option.map_bind, Option.bind_map, h.inv?]
  | div x y ihx ihy =>
      rw [Calculation.run, Calculation.run, ← ihx, ← ihy]
      simp [Option.map_bind, Option.bind_map, h.div?]

/-- Where both quotients are products with the inverse, they need no comparison of their own. -/
theorem map_div (hmul : ∀ a b, f (K.mul a b) = L.mul (f a) (f b))
    (hinv : ∀ a, (K.inv? a).map f = L.inv? (f a))
    (hK : ∀ a b, K.div? a b = (K.inv? b).map (K.mul a))
    (hL : ∀ a b, L.div? a b = (L.inv? b).map (L.mul a)) (a b : R) :
    (K.div? a b).map f = L.div? (f a) (f b) := by
  rw [hK, hL, ← hinv, Option.map_map, Option.map_map]
  congr 1
  exact funext (hmul a)

end CoeffField

/-! ## Residues -/

/-- The images of integers, where inverses are those that `modularInverse?` finds. -/
theorem CoeffRing.Modular.carries {R : Type u} {K : CoeffField R} {m : Nat} {value : R → Nat}
    (h : K.Modular m value)
    (hinv : ∀ a, K.inv? a = (modularInverse? (value a) m).map fun b : Nat => K.ofInt b)
    (hdiv : ∀ a b, K.div? a b = (K.inv? b).map (K.mul a)) : (unreduced m).Carries K K.ofInt := by
  let _ := h.reads.lawful.toCommRing
  have _ := h.reads.lawful.agrees
  have hmul : ∀ a b, K.ofInt ((unreduced m).mul a b) = K.mul (K.ofInt a) (K.ofInt b) := by
    intro a b
    simp [unreduced]
  have hinv' : ∀ k, ((unreduced m).inv? k).map K.ofInt = K.inv? (K.ofInt k) := by
    intro k
    rw [hinv, h.value_ofInt, unreduced, Option.map_map]
    rfl
  exact
    { zero := by simp [unreduced]
      one := by simp [unreduced]
      add := fun a b => by simp [unreduced]
      sub := fun a b => by simp [unreduced]
      neg := fun a => by simp [unreduced]
      mul := hmul
      pow := fun a n => by simp
      ofInt := fun n => rfl
      inv? := hinv'
      div? := CoeffField.map_div hmul hinv' (fun _ _ => rfl) hdiv }

theorem Residue.ofInt_natCast {m : Modulus} (n : Nat) : ofInt m n = reduce m n := by
  apply toNat_injective
  simp only [toNat_ofInt, toNat_reduce, ← Int.natCast_emod, Int.toNat_natCast]

theorem Residue.inv?_eq {m : Modulus} (a : Residue m) :
    a.inv? = (modularInverse? a.value.toNat m.word.toNat).map fun b : Nat => ofInt m b := by
  have hofInt : (fun b : Nat => ofInt m b) = reduce m := funext ofInt_natCast
  exact congrArg (Option.map · (modularInverse? a.value.toNat m.word.toNat)) hofInt.symm

theorem carries_integersMod (m : Modulus) :
    (unreduced m.word.toNat).Carries (integersMod m) (Residue.ofInt m) :=
  (modular_integersMod m).carries Residue.inv?_eq fun _ _ => rfl

theorem FiniteField.ofInt_natCast {p : Nat} [NonzeroModulus p] (n : Nat) :
    ofInt p n = ofNat p n := by
  apply (modular_finiteField p).injective
  simp only [ofInt, ofNat, ← Int.natCast_emod, Int.toNat_natCast]

theorem FiniteField.inv?_eq {p : Nat} [NonzeroModulus p] (a : FiniteField p) :
    a.inv? = (modularInverse? a.value p).map fun b : Nat => ofInt p b := by
  unfold inv?
  split
  case h_1 b hb =>
    -- The inverse is below the modulus, so it is its own residue.
    have hlt := modularInverse?_lt (Nat.pos_of_neZero p) hb
    have hself : (⟨b, hlt⟩ : FiniteField p) = ofInt p b := by
      apply (modular_finiteField p).injective
      simp only [ofInt_natCast, ofNat, Nat.mod_eq_of_lt hlt]
    simp [hb, hself]
  case h_2 hb =>
    simp [hb]

theorem carries_finiteField (p : Nat) [NonzeroModulus p] :
    (unreduced p).Carries (finiteField p) (FiniteField.ofInt p) :=
  (modular_finiteField p).carries FiniteField.inv?_eq fun _ _ => rfl

theorem carries_checkedResidues (m : Modulus) :
    (integersMod m).Carries (checkedResidues m.word) fun a => .ok a.value := by
  let K := integersMod m
  let L := checkedResidues m.word
  let f : Residue m → Except WordFault UInt64 := fun a => .ok a.value
  have hone : f K.one = L.one := (CheckedWord.element_eq 1).symm
  have hadd : ∀ a b, f (K.add a b) = L.add (f a) (f b) :=
    fun a b => (CheckedWord.addMod_eq a b).symm
  have hneg : ∀ a, f (K.neg a) = L.neg (f a) := fun a => (CheckedWord.negMod_eq a).symm
  have hmul : ∀ a b, f (K.mul a b) = L.mul (f a) (f b) :=
    fun a b => (CheckedWord.mulMod_eq a b).symm
  have hinv : ∀ a, (K.inv? a).map f = L.inv? (f a) := by
    intro a
    change ((modularInverse? a.value.toNat m.word.toNat).map (Residue.reduce m)).map f =
      (modularInverse? a.value.toNat m.word.toNat).map fun b => .ok (.ofNat b)
    rw [Option.map_map]
    refine Option.map_congr fun b hb => congrArg Except.ok (UInt64.toNat_inj.1 ?_)
    have hlt := modularInverse?_lt m.pos (Option.mem_def.1 hb)
    rw [Residue.toNat_reduce, Nat.mod_eq_of_lt hlt]
    exact (UInt64.toNat_ofNat_of_lt' (hlt.trans m.word.toNat_lt)).symm
  exact
    { zero := rfl
      one := hone
      add := hadd
      sub := fun a b => (hadd a (K.neg b)).trans (congrArg (L.add (f a)) (hneg b))
      neg := hneg
      mul := hmul
      pow := fun a n => (map_repeatOp f hmul K.one a n).trans (hone ▸ rfl)
      ofInt := fun n => by
        change f (Residue.ofInt m n.toInt) = CheckedWord.ofSigned m.word (.ofInt n.toInt)
        rw [Int64.ofInt_toInt, CheckedWord.ofSigned_eq]
      inv? := hinv
      div? := CoeffField.map_div hmul hinv (fun _ _ => rfl) fun _ _ => rfl }

/-! ## Results -/

section Results

variable {R : Type u}

/-- The element `x` is read as the number below `m` that is congruent to `k`, and the tests tell
whether `k` is congruent to zero and to one. -/
structure CoeffRing.StandsFor (K : CoeffRing R) (number : R → Option Nat) (m : Nat) (x : R)
    (k : Int) : Prop where
  number_eq : ∃ r < m, number x = some r ∧ (r : Int) = k % m
  isZero_iff : K.isZero x = true ↔ k % m = 0
  isOne_iff : K.isOne x = true ↔ k % m = 1 % m

/-- Over `K` every calculation has the result that it has over the integers, read modulo `m`. -/
def CoeffField.CalculatesModulo (m : Nat) (K : CoeffField R) (ofWord : UInt64 → R)
    (number : R → Option Nat) : Prop :=
  ∀ c : Calculation, Option.Rel (K.StandsFor number m) (c.run K ofWord) (c.exact m)

theorem CoeffField.calculatesModulo_of_run_eq {m : Nat} {K : CoeffField R} {ofWord : UInt64 → R}
    {number : R → Option Nat} {f : Int → R}
    (hrun : ∀ c : Calculation, c.run K ofWord = (c.exact m).map f)
    (hstands : ∀ k, K.StandsFor number m (f k) k) : K.CalculatesModulo m ofWord number := by
  intro c
  rw [hrun c]
  cases c.exact m with
  | none =>
      exact .none
  | some k =>
      exact .some (hstands k)

theorem CoeffRing.Modular.standsFor {K : CoeffRing R} {m : Nat} {value : R → Nat}
    (h : K.Modular m value) (k : Int) :
    K.StandsFor (fun a => some (value a)) m (K.ofInt k) k := by
  have hlt := h.value_lt (K.ofInt k)
  have hvalue : (value (K.ofInt k) : Int) = k % m := by
    rw [h.value_ofInt]
    exact Int.toNat_of_nonneg (Int.emod_nonneg k (by omega))
  have hone : ((1 % m : Nat) : Int) = 1 % m := Int.natCast_emod 1 m
  exact
    { number_eq := ⟨_, hlt, rfl, hvalue⟩
      isZero_iff := (h.isZero_iff _).trans (by omega)
      isOne_iff := (h.isOne_iff _).trans (by omega) }

end Results

theorem checkedResidues_standsFor {m : Modulus} {a : Residue m} {k : Int}
    (h : (integersMod m).StandsFor (fun a => some a.value.toNat) m.word.toNat a k) :
    (checkedResidues m.word).StandsFor (fun x => x.toOption.map UInt64.toNat) m.word.toNat
      (.ok a.value) k where
  number_eq := h.number_eq
  isZero_iff := by
    rw [← h.isZero_iff]
    simp [checkedResidues, integersMod]
  isOne_iff := by
    have hvalue : a.value = (Residue.ofWord m 1).value ↔ a = Residue.ofWord m 1 :=
      UInt64.toNat_inj.symm.trans Residue.toNat_injective.eq_iff
    rw [← h.isOne_iff]
    simp [checkedResidues, integersMod, CheckedWord.element_eq, hvalue]

instance (m : Modulus) : NonzeroModulus m.word.toNat :=
  ⟨m.pos.ne'⟩

/-- The modulus whose residues need the most bits. -/
def Modulus.largest : Modulus where
  word := 18446744073709551615
  pos := by decide

/-! ## Runs -/

namespace Calculation

variable (m : Modulus) (c : Calculation)

theorem run_integersMod : c.run (integersMod m) (Residue.ofWord m) =
    (c.exact m.word.toNat).map (Residue.ofInt m) :=
  ((carries_integersMod m).run (fun w => Residue.ofInt_natCast w.toNat) c).symm

theorem run_finiteField : c.run (finiteField m.word.toNat) (fun w => .ofNat _ w.toNat) =
    (c.exact m.word.toNat).map (FiniteField.ofInt m.word.toNat) :=
  ((carries_finiteField m.word.toNat).run (fun w => FiniteField.ofInt_natCast w.toNat) c).symm

theorem run_checkedResidues : c.run (checkedResidues m.word) (CheckedWord.element m.word) =
    (c.run (integersMod m) (Residue.ofWord m)).map fun a => .ok a.value :=
  ((carries_checkedResidues m).run (fun w => (CheckedWord.element_eq w).symm) c).symm

/-- The residue of an integer has the same number in both kinds. -/
theorem map_run_integersMod :
    (c.run (integersMod m) (Residue.ofWord m)).map (fun a => a.value.toNat) =
      (c.run (finiteField m.word.toNat) fun w => .ofNat _ w.toNat).map FiniteField.value := by
  rw [run_integersMod, run_finiteField, Option.map_map, Option.map_map]
  congr 1
  exact funext Residue.toNat_ofInt

/-- The steps on words are those of the second kind too. -/
theorem run_checkedResidues_finiteField :
    c.run (checkedResidues m.word) (CheckedWord.element m.word) =
      (c.run (finiteField m.word.toNat) fun w => .ofNat _ w.toNat).map fun a =>
        .ok (.ofNat a.value) := by
  calc
    c.run (checkedResidues m.word) (CheckedWord.element m.word)
        = ((c.run (integersMod m) (Residue.ofWord m)).map fun a => a.value.toNat).map fun n =>
            .ok (.ofNat n) := by
          rw [run_checkedResidues, Option.map_map]
          simp [Function.comp_def]
    _ = (c.run (finiteField m.word.toNat) fun w => .ofNat _ w.toNat).map fun a =>
          .ok (.ofNat a.value) := by
          rw [map_run_integersMod, Option.map_map]
          rfl

end Calculation

/-- Both kinds of residues are the integers modulo `m`, for every word `m` but zero. Whatever is
calculated, the results are below the modulus and congruent to the exact one, they are the same in
both kinds, and on checked words, which take the steps of either kind, no step fails. -/
theorem Calculation.run_modulo (m : Modulus) :
    Modulus.ofWord m.word = .ok m ∧
    (integersMod m).Lawful ∧ (finiteField m.word.toNat).Lawful ∧
    (integersMod m).CalculatesModulo m.word.toNat (Residue.ofWord m)
      (fun a => some a.value.toNat) ∧
    (finiteField m.word.toNat).CalculatesModulo m.word.toNat (fun w => .ofNat _ w.toNat)
      (fun a => some a.value) ∧
    (checkedResidues m.word).CalculatesModulo m.word.toNat (CheckedWord.element m.word)
      (fun x => x.toOption.map UInt64.toNat) ∧
    (∀ c : Calculation,
      (c.run (integersMod m) (Residue.ofWord m)).map (fun a => a.value.toNat) =
        (c.run (finiteField m.word.toNat) (fun w => .ofNat _ w.toNat)).map FiniteField.value) ∧
    ∀ c : Calculation,
      c.run (checkedResidues m.word) (CheckedWord.element m.word) =
          (c.run (integersMod m) (Residue.ofWord m)).map (fun a => .ok a.value) ∧
        c.run (checkedResidues m.word) (CheckedWord.element m.word) =
          (c.run (finiteField m.word.toNat) (fun w => .ofNat _ w.toNat)).map
            (fun a => .ok (.ofNat a.value)) := by
  refine ⟨?_, lawful_integersMod m, lawful_finiteField m.word.toNat, ?_, ?_, ?_,
    map_run_integersMod m, ?_⟩
  · exact dif_pos m.pos
  · exact CoeffField.calculatesModulo_of_run_eq (run_integersMod m) (modular_integersMod m).standsFor
  · exact CoeffField.calculatesModulo_of_run_eq (run_finiteField m)
      (modular_finiteField m.word.toNat).standsFor
  · refine CoeffField.calculatesModulo_of_run_eq (f := fun k => .ok (Residue.ofInt m k).value) ?_ ?_
    · intro c
      rw [run_checkedResidues, run_integersMod, Option.map_map]
      rfl
    · exact fun k => checkedResidues_standsFor ((modular_integersMod m).standsFor k)
  · intro c
    exact ⟨run_checkedResidues m c, run_checkedResidues_finiteField m c⟩

/-- The least signed word less the largest residue, to the third power. The difference is negative, and
the products of residues do not fit into 64 bits. -/
theorem Calculation.run_modulo_largest_modulus :
    let m := Modulus.largest
    let c : Calculation := .pow (.sub (.int Int64.minValue) (.word 18446744073709551614)) 3
    c.exact m.word.toNat = some ((-9223372036854775808 - 18446744073709551614) ^ 3) ∧
      (c.run (finiteField m.word.toNat) fun w => .ofNat _ w.toNat).map FiniteField.value =
        some 2305843009213693952 ∧
      (c.run (integersMod m) (Residue.ofWord m)).map (fun a => a.value.toNat) =
        some 2305843009213693952 ∧
      c.run (checkedResidues m.word) (CheckedWord.element m.word) =
        some (.ok 2305843009213693952) := by
  intro m c
  rcases run_modulo m with ⟨-, -, -, -, -, -, hsame, hchecked⟩
  have hfield : (c.run (finiteField m.word.toNat) fun w => .ofNat _ w.toNat) =
      some ⟨2305843009213693952, by decide⟩ := by
    decide +kernel
  have hvalue := congrArg (Option.map FiniteField.value) hfield
  refine ⟨by decide +kernel, hvalue, (hsame c).trans hvalue, (hchecked c).2.trans ?_⟩
  rw [hfield]
  rfl

end SymbolicPoly
