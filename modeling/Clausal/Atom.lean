/-
Atoms and propositions. An atom is a predicate symbol applied to terms.
Predicate symbol 0 is equality, and an atom of it is a proper equation only
when it has exactly two arguments: `isEquality` asks for the symbol alone,
`sides?` for both. The two notions differ on malformed atoms such as a ternary
equality, which may be built and must be rejected where an equation is needed.

A proposition is a term or an atom. Unification and the numbering of subterms
work on both alike.
-/
import Clausal.Term

set_option autoImplicit false

namespace Clausal

/-- An atomic formula: a predicate symbol applied to argument terms. -/
structure Atom where
  pred : Nat
  args : List Term
deriving DecidableEq, Inhabited

namespace Atom

/-- The number of equality in every signature. -/
def equality : Nat := 0

def equation (s t : Term) : Atom := ⟨equality, [s, t]⟩

/-- The predicate symbol is equality, whatever the number of arguments. -/
def isEquality (a : Atom) : Bool := a.pred == equality

/-- The two sides of a proper equation. -/
def sides? (a : Atom) : Option (Term × Term) :=
  match a.args with
  | [s, t] => if a.isEquality then some (s, t) else none
  | _ => none

@[simp] theorem sides?_equation (s t : Term) : (equation s t).sides? = some (s, t) := rfl

/-- Having sides and being an equation are the same thing. -/
theorem sides?_eq_some_iff {a : Atom} {s t : Term} :
    a.sides? = some (s, t) ↔ a = equation s t := by
  obtain ⟨p, args⟩ := a
  constructor
  · intro h
    unfold sides? at h
    split at h
    · next s' t' hargs =>
      split at h
      · next hp => simp_all [equation, isEquality]
      · cases h
    · cases h
  · intro h
    rw [h, sides?_equation]

/-- Every variable occurrence of an atom, left to right and with repetitions. -/
def vars (a : Atom) : List Nat := a.args.flatMap Term.vars

/-- The number of nodes of an atom, its own one included. -/
def size (a : Atom) : Nat := 1 + Term.sizeList a.args

/-- Atoms are ordered by predicate symbol and then argument by argument. -/
def compare (a b : Atom) : Ordering :=
  (Ord.compare a.pred b.pred).then (Term.compareList a.args b.args)

instance : Ord Atom := ⟨compare⟩

end Atom

/-- What is unified: a term or an atom. -/
inductive Proposition where
  | term (t : Term)
  | atom (a : Atom)
deriving DecidableEq, Inhabited

namespace Proposition

/-- Every variable occurrence of a proposition, left to right and with
repetitions. -/
def vars : Proposition → List Nat
  | .term t => t.vars
  | .atom a => a.vars

def size : Proposition → Nat
  | .term t => t.size
  | .atom a => a.size

/-- Terms come before atoms. -/
def compare : Proposition → Proposition → Ordering
  | .term s, .term t => Ord.compare s t
  | .term _, .atom _ => .lt
  | .atom _, .term _ => .gt
  | .atom a, .atom b => Ord.compare a b

instance : Ord Proposition := ⟨compare⟩

end Proposition

end Clausal
