/-
Text of terms, atoms and literals by symbol number: `X0` is a variable, `f3` a
function symbol and `p2` a predicate symbol. This is the form in which error
messages quote values, since it needs no names. Arguments follow in parentheses,
divided by commas alone, and there are no parentheses around no arguments. A
proper equation is written with its sides, and a negative literal has a tilde
before its atom, also before an equation.
-/
import Clausal.Literal

set_option autoImplicit false

namespace Clausal

/-- A parenthesised argument list; nothing at all if there is no argument. -/
def argumentText (separator : String) : List String → String
  | [] => ""
  | texts => "(" ++ separator.intercalate texts ++ ")"

namespace Term

mutual

/-- The text of a term by symbol number. -/
def numbered : Term → String
  | .var x => "X" ++ toString x
  | .app f args => "f" ++ toString f ++ argumentText "," (numberedList args)

def numberedList : List Term → List String
  | [] => []
  | t :: ts => t.numbered :: numberedList ts

end

@[simp] theorem numberedList_eq (ts : List Term) : numberedList ts = ts.map numbered := by
  induction ts with
  | nil => rfl
  | cons t ts ih => simp [numberedList, ih]

end Term

/-- The text of an atom by number; an equation has a sign between its sides. -/
def Atom.numbered (a : Atom) : String :=
  match a.sides? with
  | some (s, t) => s.numbered ++ " = " ++ t.numbered
  | none => "p" ++ toString a.pred ++ argumentText "," (Term.numberedList a.args)

/-- The text of a proposition is that of the term or the atom. -/
def Proposition.numbered : Proposition → String
  | .term t => t.numbered
  | .atom a => a.numbered

/-- The text of a literal, with a tilde in front if it is negated. -/
def Literal.numbered (l : Literal) : String :=
  if l.negated then "~" ++ l.atom.numbered else l.atom.numbered

/-- The text of a disjunction of literals; the empty one is false. -/
def disjunctionText : List String → String
  | [] => "$false"
  | texts => " | ".intercalate texts

end Clausal
