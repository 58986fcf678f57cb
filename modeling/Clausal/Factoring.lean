/-
Positive factoring. If two positive literals of a clause unify, the clause with
one of them left out follows under the unifier:

    C ∨ A ∨ B
    ---------   σ = mgu(A, B)
    σ(C ∨ A)
-/
import Clausal.Clause
import Clausal.Selection
import Clausal.Unification

set_option autoImplicit false

namespace Clausal

/-- Merges two literals of a clause whose other literals are `rest`. Both must be
positive. The literal kept comes last, and the result has no provenance. -/
def factor (rest : List Literal) (l m : Literal) : Except InferenceError Clause :=
  if l.negated || m.negated then .error (.negativeFactor l m)
  else do
    let u ← l.atom.unify m.atom
    pure (u.apply (Clause.ofLiterals (rest ++ [l])))

/-- What one pair of literals contributes to the factors of a clause: a factor that
cites the clause, or nothing if a literal is negative or the two do not unify. -/
def Clause.factorsAt (c : Clause) :
    Literal × Literal × List Literal → Except InferenceError (List Clause)
  | (l, m, rest) =>
    if l.isPositive && m.isPositive then
      productive ((·.derivedBy .factoring [c.label?]) <$> factor rest l m)
    else .ok []

/-- All factors of a clause, one for each pair of positive literals that unify, in
the order of the pairs. Factors that happen to be equal are not merged. -/
def Clause.factors (c : Clause) : Except InferenceError (List Clause) :=
  collect c.factorsAt (pairSelections c.literals)

end Clausal
