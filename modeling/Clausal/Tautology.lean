/-
Clauses that are true for trivial reasons: they assert that a term equals itself,
or they hold a literal together with its complement. A derived clause of this
kind carries no information and may be dropped.
-/
import Clausal.Clause

set_option autoImplicit false

namespace Clausal

/-- The literal asserts that a term equals itself. -/
def Literal.isReflexivity (l : Literal) : Bool :=
  match l.equation? with
  | some (s, t) => s == t
  | none => false

/-- Some literal stands before its complement in the list. -/
def hasComplements : List Literal → Bool
  | [] => false
  | l :: ls => ls.any l.isComplementOf || hasComplements ls

/-- The clause is a tautology by its form alone. -/
def Clause.isTrivial (c : Clause) : Bool :=
  c.literals.any Literal.isReflexivity || hasComplements c.literals

end Clausal
