import SymbolicPoly.Ring.ModularInverse
import SymbolicPoly.Ring.Basic

/-!
# Finite field — residues modulo a number in the type

`FiniteField p` holds the residues `0, …, p - 1`. The modulus is part of the type, so residues of
different moduli cannot meet. The operations are those of the integers, reduced modulo `p`.

For prime `p` this is the field with `p` elements. Any positive `p` is allowed: the inverse then
exists for the residues that are coprime to `p`.
-/

namespace SymbolicPoly

structure FiniteField (p : Nat) where
  value : Nat
  isLt : value < p
  deriving DecidableEq, Repr

/-- Any number but zero can be a modulus. -/
abbrev NonzeroModulus (p : Nat) : Prop :=
  @NeZero Nat Zero.ofOfNat0 p

namespace FiniteField

variable {p : Nat} [NonzeroModulus p]

/-- The residue of a natural number. -/
def ofNat (p : Nat) [NonzeroModulus p] (n : Nat) : FiniteField p where
  value := n % p
  isLt := Nat.mod_lt n (Nat.pos_of_neZero p)

/-- The residue of an integer: its remainder on division by `p`, never negative. -/
def ofInt (p : Nat) [NonzeroModulus p] (n : Int) : FiniteField p where
  value := (n % p).toNat
  isLt := by
    have hp := Nat.pos_of_neZero p
    have hlt := Int.emod_lt_of_pos n (b := p) (by omega)
    omega

def add (a b : FiniteField p) : FiniteField p :=
  ofNat p (a.value + b.value)

def neg (a : FiniteField p) : FiniteField p where
  value := if a.value = 0 then 0 else p - a.value
  isLt := by
    have ha := a.isLt
    split <;> omega

def mul (a b : FiniteField p) : FiniteField p :=
  ofNat p (a.value * b.value)

/-- The inverse, by the extended Euclidean algorithm. -/
def inv? (a : FiniteField p) : Option (FiniteField p) :=
  match h : modularInverse? a.value p with
  | some b => some ⟨b, modularInverse?_lt (Nat.pos_of_neZero p) h⟩
  | none => none

instance : FieldElement (FiniteField p) where
  zero := ⟨0, Nat.pos_of_neZero p⟩
  one := ofNat p 1
  isZero a := a.value == 0
  isOne a := a.value == 1 % p
  add := add
  sub a b := add a (neg b)
  neg := neg
  mul := mul
  ofInt := ofInt p
  inv? := inv?

/-- The modulus. -/
def characteristic (_ : FiniteField p) : Nat :=
  p

def render (a : FiniteField p) : String :=
  toString a.value

def debug (a : FiniteField p) : String :=
  "FiniteField(" ++ render a ++ ")"

end FiniteField

/-- The residues modulo `p` as a field. -/
def finiteField (p : Nat) [NonzeroModulus p] : CoeffField (FiniteField p) :=
  .ofElement (FiniteField p)

end SymbolicPoly
