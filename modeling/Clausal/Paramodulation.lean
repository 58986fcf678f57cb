/-
Binary paramodulation. An equation of one clause is used at one occurrence of a
term in a literal of another: one side of the equation is unified with that
occurrence, and the other side takes its place:

    C ∨ l = r     D ∨ L[u]
    ----------------------   σ = mgu(l, u)
       σ(L[r] ∨ C ∨ D)

Equations are used in both directions, every subterm of the literal is tried, and
no ordering of terms restricts the rule.
-/
import Clausal.Clause
import Clausal.Position
import Clausal.Selection
import Clausal.Unification

set_option autoImplicit false

namespace Clausal

/-- Uses the equation `equation.1 = equation.2` at a position of `target`. The
other literals of the clause of the equation are `rest`, those of the clause of
the target are `targetRest`. The subterm is looked up first, then unified, then
replaced, and each of these may fail. The result has no provenance. -/
def paramodulate (rest : List Literal) (equation : Term × Term) (targetRest : List Literal)
    (target : Literal) (position : Nat) : Except InferenceError Clause := do
  let subterm ← target.atom.subtermAt position
  let u ← equation.1.unify subterm
  let replaced ← target.atom.replaceAt position equation.2
  pure (u.apply (Clause.ofLiterals (⟨target.negated, replaced⟩ :: rest ++ targetRest)))

/-- All ways to use one equation literal in `target`: every position below the
atom in turn, and at each the equation as it stands before the equation turned
round. An equation between identical terms changes nothing and is not used. -/
def literalParamodulants (rest : List Literal) (equation : Literal) (targetRest : List Literal)
    (target : Literal) : Except InferenceError (List Clause) :=
  match equation.equation? with
  | none => .error (.notEquation equation)
  | some (s, t) =>
    if s = t then .ok []
    else
      collect
        (fun position =>
          collect (fun e => productive (paramodulate rest e targetRest target position))
            equation.orientations)
        (List.range' 1 (target.atom.size - 1))

/-- All paramodulants between two clauses of which one literal each has been
chosen: first those that use the first literal in the second, then those that use
the second in the first. A literal is used if it asserts an atom of equality. -/
def selectionParamodulants (one two : Literal × List Literal) :
    Except InferenceError (List Clause) := do
  let forward ←
    if one.1.isPositiveEquality then literalParamodulants one.2 one.1 two.2 two.1 else .ok []
  let backward ←
    if two.1.isPositiveEquality then literalParamodulants two.2 two.1 one.2 one.1 else .ok []
  pure (forward ++ backward)

/-- All paramodulants between two clauses, citing both. -/
def Clause.paramodulants (c given : Clause) : Except InferenceError (List Clause) :=
  collect
    (fun one =>
      (List.map (·.derivedBy .paramodulation [c.label?, given.label?])) <$>
        collect (selectionParamodulants one) (selections given.literals))
    (selections c.literals)

/-- All paramodulants between a given clause and each of the processed ones. -/
def paramodulants (processed : List Clause) (given : Clause) :
    Except InferenceError (List Clause) :=
  collect (fun c => c.paramodulants given) processed

end Clausal
