import SymbolicPoly.Monomial.Exponent
import SymbolicPoly.Monomial.Text
import SymbolicPoly.Poly.Operand
import SymbolicPoly.Poly.Queries
import SymbolicPoly.Poly.Substitution
import SymbolicPoly.Poly.Text
import SymbolicPoly.Ring.FiniteField
import SymbolicPoly.Ring.Lawful
import SymbolicPoly.Ring.Rationals
import SymbolicPoly.Ring.Residue
import SymbolicPoly.Ring.Words
import SymbolicPoly.Proofs.Outcome
import SymbolicPoly.Proofs.Ring.Repetition
import SymbolicPoly.Proofs.Ring.Commutative
import SymbolicPoly.Proofs.Monomial.Finsupp
import SymbolicPoly.Proofs.Poly.Coefficient
import SymbolicPoly.Proofs.Poly.MvPolynomial
import SymbolicPoly.Proofs.Poly.Canonical
import SymbolicPoly.Proofs.Operand.Arithmetic
import SymbolicPoly.Proofs.Monomial.Factorization
import SymbolicPoly.Proofs.Operand.Coefficient
import SymbolicPoly.Proofs.Poly.Construction
import SymbolicPoly.Proofs.Poly.Overflow
import SymbolicPoly.Proofs.Operand.Lifting
import SymbolicPoly.Proofs.Poly.Variables
import SymbolicPoly.Proofs.Poly.Evaluation
import SymbolicPoly.Proofs.Poly.Composition
import SymbolicPoly.Proofs.Monomial.Graded
import SymbolicPoly.Proofs.Poly.Leading
import SymbolicPoly.Proofs.Poly.Degree
import SymbolicPoly.Proofs.Poly.GradedTerms
import SymbolicPoly.Proofs.Poly.Domain
import SymbolicPoly.Proofs.Ring.Modular
import SymbolicPoly.Proofs.Poly.Homomorphism
import SymbolicPoly.Proofs.Operand.Expression
import SymbolicPoly.Proofs.Poly.Substitution
import SymbolicPoly.Proofs.Poly.Laws
import SymbolicPoly.Proofs.Poly.Power
import SymbolicPoly.Proofs.Poly.Constants
import SymbolicPoly.Proofs.Ring.Calculation
import SymbolicPoly.Proofs.Monomial.TermOrder
import SymbolicPoly.Proofs.Poly.ProductOverflow
import SymbolicPoly.Proofs.Poly.Stages
import SymbolicPoly.Proofs.Poly.ComposeOverflow
import SymbolicPoly.Proofs.Poly.Renaming
import SymbolicPoly.Proofs.Ring.Division
import SymbolicPoly.Proofs.Ring.Euclid
import SymbolicPoly.Proofs.Ring.IntegerImage
import SymbolicPoly.Proofs.Monomial.Product
import SymbolicPoly.Proofs.Poly.Collection
import SymbolicPoly.Proofs.Poly.TermSequence
import SymbolicPoly.Proofs.Poly.Equality
import SymbolicPoly.Proofs.Poly.Queries
import SymbolicPoly.Proofs.Poly.Unbound
import SymbolicPoly.Proofs.Ring.Powers
import SymbolicPoly.Proofs.Ring.Fermat
import SymbolicPoly.Proofs.Poly.Frobenius
import SymbolicPoly.Proofs.Delimited
import SymbolicPoly.Proofs.Ring.Numerals
import SymbolicPoly.Proofs.Monomial.Text
import SymbolicPoly.Proofs.Poly.Text
import SymbolicPoly.Proofs.Ring.LowestTerms
import SymbolicPoly.Proofs.Ring.Cofactors
import SymbolicPoly.Proofs.Ring.CheckedEuclid
