import SymbolicPoly.Symbol

/-!
# Error — the four ways an operation can fail

Ring arithmetic, sums and scalings of polynomials always succeed. What can fail is

* raising an exponent beyond the largest 32-bit word (`ExponentOverflow`),
* evaluating at a point that leaves a variable without a value (`UnboundVariable`),
* taking residues modulo zero (`ZeroModulus`),
* writing a fraction over zero (`ZeroDenominator`).

Each error holds the data of its cause, and `message` words it.
-/

namespace SymbolicPoly

/-- The exponent `current` of `symbol` was to be raised by `added`, past the largest exponent. -/
structure ExponentOverflow where
  symbol : Symbol
  current : UInt32
  added : UInt32
  deriving DecidableEq, Repr

def ExponentOverflow.message (e : ExponentOverflow) : String :=
  "exponent of " ++ e.symbol.name ++ " overflows u32: " ++ toString e.current.toNat ++ " + " ++
    toString e.added.toNat

/-- The point of evaluation assigns nothing to `symbol`. -/
structure UnboundVariable where
  symbol : Symbol
  deriving DecidableEq, Repr

def UnboundVariable.message (e : UnboundVariable) : String :=
  "variable " ++ e.symbol.name ++ " has no assigned value"

/-- The integers modulo zero were asked for. -/
structure ZeroModulus where
  deriving DecidableEq, Repr

def ZeroModulus.message (_ : ZeroModulus) : String :=
  "modulus must be positive, got 0"

/-- A fraction with denominator zero was asked for. -/
structure ZeroDenominator where
  deriving DecidableEq, Repr

def ZeroDenominator.message (_ : ZeroDenominator) : String :=
  "denominator cannot be zero"

end SymbolicPoly
