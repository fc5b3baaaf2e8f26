/-!
# Coefficient rings — operations carried by a type or by a value

Polynomials take their coefficients from a ring. A ring comes in two forms.

* `RingElement R`: the type `R` alone knows how to compute. The integers are one.
* `CoeffRing R`: a value holds the operations, and whatever data they need is inside it. The
  integers modulo a number that is only known when the program runs are one.

`CoeffRing.ofElement` turns the first form into the second, and polynomials only use the second.
`FieldElement` and `CoeffField` add a partial inverse to each form.

In both forms only zero, one, sums, negatives, products and tests are needed. The image of an
integer and powers have defaults that take logarithmically many steps: they double, or square, and
read the binary digits of the number. The laws of rings are not part of either form.
-/

namespace SymbolicPoly

universe u v

/-! ## Repeating an operation -/

/-- Combines `acc` with `n` copies of `base`, in that order. The binary digits of `n` are read from
the lowest: a digit one combines `acc` with `base`, and between two digits `base` is combined with
itself. Nothing is combined after the last digit. -/
def repeatOpM {α : Type u} {m : Type u → Type v} [Monad m] (op : α → α → m α) (acc base : α)
    (n : Nat) : m α :=
  if n = 0 then
    pure acc
  else do
    let acc ← if n % 2 = 1 then op acc base else pure acc
    if n / 2 = 0 then
      pure acc
    else do
      let base ← op base base
      repeatOpM op acc base (n / 2)
termination_by n

/-- `repeatOpM` for an operation that cannot fail. -/
def repeatOp {α : Type u} (op : α → α → α) (acc base : α) (n : Nat) : α :=
  Id.run (repeatOpM (fun a b => pure (op a b)) acc base n)

/-- Adds `n` copies of `base` to `acc`. Here `base` is doubled after each digit, after the last one
too, and that double is not used. -/
def addCopies {α : Type u} (add : α → α → α) (acc base : α) (n : Nat) : α :=
  if n = 0 then
    acc
  else
    addCopies add (if n % 2 = 1 then add acc base else acc) (add base base) (n / 2)
termination_by n

/-- `n` copies of `one` added up, negated for negative `n`. -/
def sumOfOnes {α : Type u} (zero one : α) (add : α → α → α) (neg : α → α) (n : Int) : α :=
  let size := addCopies add zero one n.natAbs
  if n < 0 then neg size else size

/-! ## Rings carried by a type -/

class RingElement (R : Type u) where
  zero : R
  one : R
  isZero : R → Bool
  isOne : R → Bool
  add : R → R → R
  sub : R → R → R
  neg : R → R
  mul : R → R → R
  /-- The image of an integer. -/
  ofInt : Int → R := sumOfOnes zero one add neg
  /-- The exponent zero is told apart before any digit is read. -/
  pow : R → Nat → R := fun a n => if n = 0 then one else repeatOp mul one a n

class FieldElement (R : Type u) extends RingElement R where
  /-- The inverse, if there is one. -/
  inv? : R → Option R
  /-- The quotient, if the divisor has an inverse. -/
  div? : R → R → Option R := fun a b => (inv? b).map (mul a)

namespace RingElement

variable {R : Type u} [RingElement R]

/-- The sum of a list, from the left. -/
def sum (xs : List R) : R :=
  xs.foldl add zero

/-- The product of a list, from the left. -/
def product (xs : List R) : R :=
  xs.foldl mul one

end RingElement

/-! ## Rings carried by a value -/

structure CoeffRing (R : Type u) where
  zero : R
  one : R
  isZero : R → Bool
  isOne : R → Bool
  add : R → R → R
  neg : R → R
  sub : R → R → R := fun a b => add a (neg b)
  mul : R → R → R
  /-- The image of an integer: the one way in which integers enter a ring. -/
  ofInt : Int → R := sumOfOnes zero one add neg
  pow : R → Nat → R := repeatOp mul one

structure CoeffField (R : Type u) extends CoeffRing R where
  /-- The inverse, if there is one. -/
  inv? : R → Option R
  /-- The quotient, if the divisor has an inverse. -/
  div? : R → R → Option R := fun a b => (inv? b).map (mul a)

/-- The ring given by its constants, sums, negatives and products. All else is derived from them,
the tests by comparison with the constants. -/
def CoeffRing.ofOperations {R : Type u} [DecidableEq R] (zero one : R) (add : R → R → R)
    (neg : R → R) (mul : R → R → R) : CoeffRing R where
  zero := zero
  one := one
  isZero a := decide (a = zero)
  isOne a := decide (a = one)
  add := add
  neg := neg
  mul := mul

/-- The ring of a type that carries its operations. -/
def CoeffRing.ofElement (R : Type u) [RingElement R] : CoeffRing R where
  zero := RingElement.zero
  one := RingElement.one
  isZero := RingElement.isZero
  isOne := RingElement.isOne
  add := RingElement.add
  neg := RingElement.neg
  sub := RingElement.sub
  mul := RingElement.mul
  ofInt := RingElement.ofInt
  pow := RingElement.pow

/-- The field of a type that carries its operations. Quotients are products with the inverse. -/
def CoeffField.ofElement (R : Type u) [FieldElement R] : CoeffField R where
  toCoeffRing := .ofElement R
  inv? := FieldElement.inv?

end SymbolicPoly
