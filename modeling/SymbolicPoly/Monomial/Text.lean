import SymbolicPoly.Monomial.Basic

/-!
# Monomial text — how monomials are written

* `render` is the written form: factors joined by `*`, as in `x^2*y`, an exponent left out when it
  is one, and `1` for the monomial without factors.
* `debug` lists the exponents, as in `{x: 2, y: 1}`.

Symbols stand with their bare names.
-/

namespace SymbolicPoly

namespace Monomial

def renderFactor (f : Symbol × UInt32) : String :=
  if f.2 = 1 then f.1.name else f.1.name ++ "^" ++ toString f.2.toNat

def render (m : Monomial) : String :=
  if m.isOne then "1" else "*".intercalate (m.factors.map renderFactor)

def debugFactor (f : Symbol × UInt32) : String :=
  f.1.name ++ ": " ++ toString f.2.toNat

def debug (m : Monomial) : String :=
  "\x7b" ++ ", ".intercalate (m.factors.map debugFactor) ++ "\x7d"

instance : ToString Monomial where
  toString := render

end Monomial

end SymbolicPoly
