/-!
# Symbol — variables known by name

A symbol is a variable of a polynomial. It has a name and nothing else: any string names a
symbol, the empty string too, and equal names are the same variable.

Symbols are ordered by the code points of their names. The order is linear and compares equal
only what is equal, so symbols can be the keys of ordered maps.
-/

namespace SymbolicPoly

structure Symbol where
  name : String
  deriving DecidableEq, Repr

namespace Symbol

instance : Ord Symbol where
  compare := compareOn name

instance : Std.TransOrd Symbol :=
  inferInstanceAs (Std.TransCmp (compareOn name))

theorem compare_def (s t : Symbol) : compare s t = compare s.name t.name :=
  rfl

instance : Std.LawfulEqOrd Symbol where
  eq_of_compare {s t} h := by
    have hname : s.name = t.name := Std.LawfulEqCmp.eq_of_compare ((compare_def s t).symm.trans h)
    cases s
    cases t
    exact congrArg Symbol.mk hname

/-- A symbol is written as its bare name, without quotes. -/
instance : ToString Symbol where
  toString s := s.name

end Symbol

end SymbolicPoly
