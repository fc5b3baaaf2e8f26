import SymbolicPoly.Error
import Std.Data.ExtTreeMap

/-!
# Monomial — products of powers of symbols

A monomial is the variable part of a term: finitely many symbols, each with a positive exponent
that fits a 32-bit word. The factors are kept in the order of their symbols and no factor has
exponent zero. Both facts are part of the type, so equal products are equal values.

* `exponent` is the view through which every operation is described: zero at a symbol that does
  not occur.
* `withExponent` gives a symbol a new exponent, `mulPower` adds to the exponent that it has.
* `mul`, `ofFactors` and `prod` are built from `mulPower`. They fail as soon as one exponent would
  pass the largest word.
-/

namespace SymbolicPoly

/-- A raw table of exponents. Unlike a monomial it may list a symbol with exponent zero. -/
abbrev ExponentTable : Type :=
  Std.ExtTreeMap Symbol UInt32

structure Monomial where
  factors : List (Symbol × UInt32)
  sorted : factors.Pairwise (fun f g => compare f.1 g.1 = .lt)
  positive : ∀ f ∈ factors, f.2 ≠ 0
  deriving DecidableEq

/-- The sum of two exponents, if it still is one. -/
def addExponents? (d e : UInt32) : Option UInt32 :=
  if d.toNat + e.toNat < UInt32.size then some (d + e) else none

namespace Monomial

/-- The monomial without factors, key of the constant term. -/
def one : Monomial where
  factors := []
  sorted := .nil
  positive := by simp

instance : Inhabited Monomial where
  default := one

/-- The exponent of `s`, zero if `s` does not occur. -/
def exponent (m : Monomial) (s : Symbol) : UInt32 :=
  (m.factors.lookup s).getD 0

/-- The factors whose symbol is kept. -/
def restrict (keep : Symbol → Bool) (m : Monomial) : Monomial where
  factors := m.factors.filter (fun f => keep f.1)
  sorted := m.sorted.filter _
  positive := fun f hf => m.positive f (List.mem_filter.1 hf).1

/-- The factors in front of `s`, the factor `s ^ e` unless `e` is zero, the factors behind `s`. -/
def placeFactor (s : Symbol) (e : UInt32) (fs : List (Symbol × UInt32)) :
    List (Symbol × UInt32) :=
  fs.filter (fun f => compare f.1 s == .lt) ++
    ((if e = 0 then [] else [(s, e)]) ++ fs.filter (fun f => compare s f.1 == .lt))

theorem placeFactor_sorted (s : Symbol) (e : UInt32) {fs : List (Symbol × UInt32)}
    (h : fs.Pairwise (fun f g => compare f.1 g.1 = .lt)) :
    (placeFactor s e fs).Pairwise (fun f g => compare f.1 g.1 = .lt) := by
  unfold placeFactor
  refine List.pairwise_append.2 ⟨h.filter _, ?_, ?_⟩
  · split
    · simpa using h.filter _
    · simpa using h.filter _
  · intro f hf g hg
    have hfs : compare f.1 s = .lt := by simpa using (List.mem_filter.1 hf).2
    rcases List.mem_append.1 hg with hg | hg
    · split at hg
      · simp at hg
      · have hgs : g = (s, e) := by simpa using hg
        simpa [hgs] using hfs
    · have hsg : compare s g.1 = .lt := by simpa using (List.mem_filter.1 hg).2
      exact Std.TransCmp.lt_trans hfs hsg

theorem placeFactor_positive (s : Symbol) (e : UInt32) {fs : List (Symbol × UInt32)}
    (h : ∀ f ∈ fs, f.2 ≠ 0) : ∀ f ∈ placeFactor s e fs, f.2 ≠ 0 := by
  intro f hf
  rcases List.mem_append.1 hf with hf | hf
  · exact h f (List.mem_filter.1 hf).1
  · rcases List.mem_append.1 hf with hf | hf
    · split at hf
      · simp at hf
      · have hfs : f = (s, e) := by simpa using hf
        simpa [hfs]
    · exact h f (List.mem_filter.1 hf).1

/-- Gives `s` the exponent `e` and leaves the other symbols alone. -/
def withExponent (m : Monomial) (s : Symbol) (e : UInt32) : Monomial where
  factors := placeFactor s e m.factors
  sorted := placeFactor_sorted s e m.sorted
  positive := placeFactor_positive s e m.positive

/-- The monomial `s`. -/
def ofSymbol (s : Symbol) : Monomial :=
  one.withExponent s 1

/-- Clears a table of its zero exponents. -/
def ofTable (t : ExponentTable) : Monomial where
  factors := t.toList.filter (fun f => f.2 != 0)
  sorted := Std.ExtTreeMap.ordered_keys_toList.filter _
  positive := by
    intro f hf
    simpa using (List.mem_filter.1 hf).2

/-- The exponents as a table. -/
def table (m : Monomial) : ExponentTable :=
  .ofList m.factors

/-! ## Multiplication -/

/-- The product `m * s ^ e`. -/
def mulPower (m : Monomial) (s : Symbol) (e : UInt32) : Except ExponentOverflow Monomial :=
  match addExponents? (m.exponent s) e with
  | some sum => .ok (m.withExponent s sum)
  | none => .error ⟨s, m.exponent s, e⟩

/-- Multiplies by each factor in turn, and stops at the first that does not fit. -/
def mulPowers (m : Monomial) (fs : List (Symbol × UInt32)) : Except ExponentOverflow Monomial :=
  fs.foldlM (fun m f => m.mulPower f.1 f.2) m

/-- The product of the factors: a symbol may occur repeatedly, and zero exponents vanish. -/
def ofFactors (fs : List (Symbol × UInt32)) : Except ExponentOverflow Monomial :=
  one.mulPowers fs

/-- The number of symbols that occur. -/
def size (m : Monomial) : Nat :=
  m.factors.length

/-- The product: the monomial with fewer factors is multiplied into the other one, the right into
the left if they have equally many. -/
def mul (a b : Monomial) : Except ExponentOverflow Monomial :=
  if b.size ≤ a.size then a.mulPowers b.factors else b.mulPowers a.factors

def mulSymbol (m : Monomial) (s : Symbol) : Except ExponentOverflow Monomial :=
  m.mulPower s 1

/-- The product of a list, from the left. -/
def prod (ms : List Monomial) : Except ExponentOverflow Monomial :=
  ms.foldlM mul one

/-! ## Queries -/

def isOne (m : Monomial) : Bool :=
  m.factors.isEmpty

def vars (m : Monomial) : List Symbol :=
  m.factors.map Prod.fst

/-- The sum of all exponents. -/
def totalDegree (m : Monomial) : Nat :=
  m.factors.foldr (fun f sum => f.2.toNat + sum) 0

/-- The exponent of `s`, and what is left of the monomial without `s`. -/
def split (m : Monomial) (s : Symbol) : UInt32 × Monomial :=
  (m.exponent s, m.restrict (· != s))

end Monomial

end SymbolicPoly
