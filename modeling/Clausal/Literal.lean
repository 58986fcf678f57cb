/-
Literals: atoms with a sign.
-/
import Clausal.Atom

set_option autoImplicit false

namespace Clausal

/-- An atom, possibly negated. -/
structure Literal where
  negated : Bool
  atom : Atom
deriving DecidableEq, Inhabited

namespace Literal

def pos (a : Atom) : Literal := ⟨false, a⟩

def neg (a : Atom) : Literal := ⟨true, a⟩

def isPositive (l : Literal) : Bool := !l.negated

/-- The literal asserts an atom of equality, whatever its number of arguments. -/
def isPositiveEquality (l : Literal) : Bool := l.isPositive && l.atom.isEquality

/-- The two literals have one atom and opposite signs. -/
def isComplementOf (l m : Literal) : Bool := l.negated != m.negated && l.atom == m.atom

/-- The sides of a positive proper equation. -/
def equation? (l : Literal) : Option (Term × Term) :=
  if l.negated then none else l.atom.sides?

/-- A proper equation of either sign read in both directions, as it stands
first; no other literal has a reading. -/
def orientations (l : Literal) : List (Term × Term) :=
  match l.atom.sides? with
  | some (s, t) => [(s, t), (t, s)]
  | none => []

/-- Every variable occurrence of a literal, left to right and with repetitions. -/
def vars (l : Literal) : List Nat := l.atom.vars

/-- Positive literals come before negative ones; then the atoms decide. -/
def compare (l m : Literal) : Ordering :=
  (Ord.compare l.negated m.negated).then (Ord.compare l.atom m.atom)

instance : Ord Literal := ⟨compare⟩

end Literal

end Clausal
