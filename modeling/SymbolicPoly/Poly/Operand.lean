import SymbolicPoly.Poly.Arithmetic

/-!
# Operand — arithmetic of mixed arguments

An operand of `+`, `-` and `*` is an integer, an element of the coefficient ring, a symbol or a
polynomial. An integer stands for its image in the ring, so arithmetic only has to tell apart
constants, symbols and polynomials.

Where one side is a constant or a symbol the result is formed directly, without a second
polynomial: constants fold in the ring, a symbol or constant is added to the one term that it meets
and multiplied into the terms that are there.
-/

namespace SymbolicPoly

universe u

inductive Operand (R : Type u) where
  | int (n : Int)
  | constant (c : R)
  | symbol (s : Symbol)
  | poly (p : Poly R)

namespace Operand

variable {R : Type u}

/-- An operand whose integers have been mapped into the ring. -/
inductive Form (R : Type u) where
  | constant (c : R)
  | symbol (s : Symbol)
  | poly (p : Poly R)

/-- Maps an integer into the ring. -/
def form (K : CoeffRing R) : Operand R → Form R
  | .int n => .constant (K.ofInt n)
  | .constant c => .constant c
  | .symbol s => .symbol s
  | .poly p => .poly p

/-- The polynomial for which an operand stands. -/
def lift (K : CoeffRing R) (x : Operand R) : Poly R :=
  match x.form K with
  | .constant c => .constant K c
  | .symbol s => .symbol K s
  | .poly p => p

def add (K : CoeffRing R) (x y : Operand R) : Poly R :=
  match x.form K, y.form K with
  | .poly p, .poly q => p.add K q
  | .poly p, .constant c => p.addTerm K .one c
  | .constant c, .poly p => p.addTerm K .one c
  | .poly p, .symbol s => p.addTerm K (.ofSymbol s) K.one
  | .symbol s, .poly p => p.addTerm K (.ofSymbol s) K.one
  | .symbol s, .symbol t => .ofTerms K [(.ofSymbol s, K.one), (.ofSymbol t, K.one)]
  | .symbol s, .constant c => .ofTerms K [(.ofSymbol s, K.one), (.one, c)]
  | .constant c, .symbol s => .ofTerms K [(.ofSymbol s, K.one), (.one, c)]
  | .constant c, .constant d => .constant K (K.add c d)

def sub (K : CoeffRing R) (x y : Operand R) : Poly R :=
  match x.form K, y.form K with
  | .poly p, .poly q => p.sub K q
  | .poly p, .constant c => p.addTerm K .one (K.neg c)
  | .constant c, .poly p => (p.neg K).addTerm K .one c
  | .poly p, .symbol s => p.addTerm K (.ofSymbol s) (K.neg K.one)
  | .symbol s, .poly p => (p.neg K).addTerm K (.ofSymbol s) K.one
  | .symbol s, .symbol t => .ofTerms K [(.ofSymbol s, K.one), (.ofSymbol t, K.neg K.one)]
  | .symbol s, .constant c => .ofTerms K [(.ofSymbol s, K.one), (.one, K.neg c)]
  | .constant c, .symbol s => .ofTerms K [(.ofSymbol s, K.neg K.one), (.one, c)]
  | .constant c, .constant d => .constant K (K.sub c d)

def mul (K : CoeffRing R) (x y : Operand R) : Except ExponentOverflow (Poly R) :=
  match x.form K, y.form K with
  | .poly p, .poly q => p.mul K q
  | .poly p, .constant c => .ok (p.scale K c)
  | .constant c, .poly p => .ok (p.scale K c)
  | .poly p, .symbol s => p.mulSymbol s
  | .symbol s, .poly p => p.mulSymbol s
  | .symbol s, .symbol t =>
      ((Monomial.ofSymbol s).mulSymbol t).map fun m => .monomial K m K.one
  | .symbol s, .constant c => .ok (.monomial K (.ofSymbol s) c)
  | .constant c, .symbol s => .ok (.monomial K (.ofSymbol s) c)
  | .constant c, .constant d => .ok (.constant K (K.mul c d))

def neg (K : CoeffRing R) (x : Operand R) : Poly R :=
  match x.form K with
  | .constant c => .constant K (K.neg c)
  | .symbol s => .monomial K (.ofSymbol s) (K.neg K.one)
  | .poly p => p.neg K

end Operand

end SymbolicPoly
