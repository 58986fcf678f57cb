/-
What can go wrong when propositions are unified, subterms are addressed or an
inference rule is applied.

Two causes only say that one choice of premises has no conclusion: the
propositions do not unify, or the subterm would be replaced by itself. An
enumeration of all conclusions passes over these and stops at every other one.
-/
import Clausal.Rendering.Numbered

set_option autoImplicit false

namespace Clausal

/-- The causes of a failed inference. -/
inductive InferenceError where
  /-- No substitution makes the two propositions equal. -/
  | nonUnifiable (left right : Proposition)
  /-- The subterm at the position is the replacement already. -/
  | degenerateReplacement (position : Nat)
  /-- One of two literals to be merged is negative. -/
  | negativeFactor (left right : Literal)
  /-- The literal to be used as an equation is not a positive proper one. -/
  | notEquation (literal : Literal)
  /-- The position lies behind the last node of a proposition. -/
  | indexOutOfRange (index size : Nat)
  /-- The position is that of an atom itself, which is no term. -/
  | invalidPosition (position : Nat)
deriving DecidableEq

namespace InferenceError

/-- The wording of each cause. -/
def message : InferenceError → String
  | nonUnifiable p q => p.numbered ++ " and " ++ q.numbered ++ " are not unifiable"
  | degenerateReplacement i =>
    "sub-term at position " ++ toString i ++ " would be replaced by itself"
  | negativeFactor l m => "factoring is not possible for " ++ l.numbered ++ " and " ++ m.numbered
  | notEquation l => "expected equality, but got " ++ l.numbered
  | indexOutOfRange i n =>
    "sub-term index " ++ toString i ++ " is out of range for a proposition of size " ++ toString n
  | invalidPosition i => "position " ++ toString i ++ " of an atom does not address a term"

/-- The cause only rules out one choice of premises. -/
def isUnproductive : InferenceError → Bool
  | nonUnifiable _ _ | degenerateReplacement _ => true
  | negativeFactor _ _ | notEquation _ | indexOutOfRange _ _ | invalidPosition _ => false

end InferenceError

/-- The outcome of an inference, as an enumeration sees it: an unproductive
failure contributes nothing, any other failure ends the enumeration. -/
def productive {α : Type} : Except InferenceError α → Except InferenceError (List α)
  | .ok a => .ok [a]
  | .error e => if e.isUnproductive then .ok [] else .error e

/-- All results of a family of inferences, in the order of the family; the first
failure wins. -/
def collect {α β : Type} (f : α → Except InferenceError (List β)) :
    List α → Except InferenceError (List β)
  | [] => .ok []
  | a :: as => do
    let here ← f a
    let later ← collect f as
    pure (here ++ later)

end Clausal
