import SymbolicPoly.Monomial.Text
import SymbolicPoly.Poly.Basic

/-!
# Polynomial text — how polynomials are written

Both forms go through the terms in graded order and are told how coefficients are written.

* `render` is the written form, as in `x^2 - 3*x*y + 1`. A leading `-` of a coefficient becomes the
  sign that joins its term to those before, and the coefficient one is left out unless it stands
  alone. The polynomial without terms is `0`.
* `debug` lists the stored terms, as in `{{x: 2}: 3, {}: 5}` behind the name of the type.
-/

namespace SymbolicPoly

namespace Poly

universe u

variable {R : Type u}

/-- A sign and a magnitude: whether the text starts with `-`, and the text without it. -/
def splitSign (text : String) : Bool × String :=
  match text.toList with
  | '-' :: rest => (true, String.ofList rest)
  | _ => (false, text)

/-- A term without its sign. -/
def renderUnsigned (m : Monomial) (magnitude : String) : String :=
  if m.isOne then
    magnitude
  else if magnitude = "1" then
    m.render
  else
    magnitude ++ "*" ++ m.render

/-- A term with the sign that stands before it, at the start of a polynomial or after other
terms. -/
def renderTerm (text : R → String) (first : Bool) (t : Monomial × R) : String :=
  let (negative, magnitude) := splitSign (text t.2)
  let sign :=
    match first, negative with
    | true, true => "-"
    | true, false => ""
    | false, true => " - "
    | false, false => " + "
  sign ++ renderUnsigned t.1 magnitude

def renderTerms (text : R → String) : List (Monomial × R) → String
  | [] => "0"
  | t :: ts => renderTerm text true t ++ String.join (ts.map (renderTerm text false))

def render (text : R → String) (p : Poly R) : String :=
  renderTerms text p.gradedTerms

def debugTerm (text : R → String) (t : Monomial × R) : String :=
  t.1.debug ++ ": " ++ text t.2

def debug (text : R → String) (p : Poly R) : String :=
  "LabeledPolynomial\x7b" ++ ", ".intercalate (p.gradedTerms.map (debugTerm text)) ++ "\x7d"

end Poly

end SymbolicPoly
