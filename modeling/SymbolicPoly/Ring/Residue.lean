import SymbolicPoly.Error
import SymbolicPoly.Ring.ModularInverse
import SymbolicPoly.Ring.Basic

/-!
# Residue — integers modulo a machine word chosen at run time

`integersMod m` is the ring of integers modulo `m`, a positive 64-bit word. The ring is a value: it
is made from a modulus that need only be known when the program runs, and one program can work in
many such rings. Modulo one it is the zero ring, where one and zero are the same.

Residues are stored in 64-bit words and are always reduced. A sum or product of two residues is
formed exactly before it is reduced, so no word ever wraps.
-/

namespace SymbolicPoly

/-- A positive 64-bit word. -/
structure Modulus where
  word : UInt64
  pos : 0 < word.toNat
  deriving DecidableEq

namespace Modulus

/-- Refuses zero. -/
def ofWord (w : UInt64) : Except ZeroModulus Modulus :=
  if h : 0 < w.toNat then .ok ⟨w, h⟩ else .error ⟨⟩

end Modulus

/-- A residue modulo `m`: a word below `m`. -/
structure Residue (m : Modulus) where
  value : UInt64
  isLt : value.toNat < m.word.toNat
  deriving DecidableEq

namespace Residue

variable {m : Modulus}

/-- The residue of a natural number of any size. -/
def reduce (m : Modulus) (n : Nat) : Residue m where
  value := .ofNatLT (n % m.word.toNat)
    (Nat.lt_trans (Nat.mod_lt n m.pos) m.word.toNat_lt)
  isLt := by simpa using Nat.mod_lt n m.pos

/-- The residue of a word. -/
def ofWord (m : Modulus) (w : UInt64) : Residue m :=
  reduce m w.toNat

/-- The residue of an integer: its remainder on division by `m`, never negative. -/
def ofInt (m : Modulus) (n : Int) : Residue m :=
  reduce m (n % m.word.toNat).toNat

def zero : Residue m where
  value := 0
  isLt := m.pos

def add (a b : Residue m) : Residue m :=
  reduce m (a.value.toNat + b.value.toNat)

theorem toNat_modulus_sub (a : Residue m) :
    (m.word - a.value).toNat = m.word.toNat - a.value.toNat :=
  UInt64.toNat_sub_of_le _ _ (UInt64.le_iff_toNat_le.2 (Nat.le_of_lt a.isLt))

def neg (a : Residue m) : Residue m where
  value := if a.value = 0 then 0 else m.word - a.value
  isLt := by
    split
    · exact m.pos
    · rename_i h
      have hpos : a.value.toNat ≠ 0 := fun h0 => h (UInt64.toNat_inj.1 h0)
      have hlt := a.isLt
      rw [toNat_modulus_sub]
      omega

def mul (a b : Residue m) : Residue m :=
  reduce m (a.value.toNat * b.value.toNat)

/-- The inverse, by the extended Euclidean algorithm. -/
def inv? (a : Residue m) : Option (Residue m) :=
  (modularInverse? a.value.toNat m.word.toNat).map (reduce m)

/-- The order of the reduced words. -/
instance : Ord (Residue m) where
  compare a b := compare a.value b.value

def render (a : Residue m) : String :=
  toString a.value.toNat

def debug (a : Residue m) : String :=
  "Residue(" ++ render a ++ ")"

end Residue

/-- The ring of integers modulo `m`, with the inverses that exist in it. -/
def integersMod (m : Modulus) : CoeffField (Residue m) where
  zero := Residue.zero
  one := Residue.ofWord m 1
  isZero a := a.value == 0
  isOne a := a == Residue.ofWord m 1
  add := Residue.add
  neg := Residue.neg
  mul := Residue.mul
  ofInt := Residue.ofInt m
  inv? := Residue.inv?

end SymbolicPoly
