/-
Text of terms, literals and clauses by the names of a signature, in the form of
the TPTP problem library. A known variable is written as its name, an underscore
and its number, since names are not unique but numbers are. An unknown symbol is
written by its number, with `X`, `f` or `p` before it.

`Clause.annotated` writes a whole annotated formula: a given clause as an axiom
under its name, a derived one as a lemma with the inference that it comes from.
-/
import Clausal.Signature

set_option autoImplicit false

namespace Clausal

namespace Signature

/-- The name of a variable with its number; a variable without a name is written by number
only. -/
def variableText (σ : Signature) (x : Nat) : String :=
  match σ.variableName? x with
  | some name => name ++ "_" ++ toString x
  | none => "X" ++ toString x

/-- The name of a function symbol, or its number if it has none. -/
def functionText (σ : Signature) (f : Nat) : String :=
  match σ.functionSymbol? f with
  | some s => s.name
  | none => "f" ++ toString f

/-- The name of a predicate symbol, or its number if it has none. -/
def predicateText (σ : Signature) (p : Nat) : String :=
  match σ.predicateSymbol? p with
  | some s => s.name
  | none => "p" ++ toString p

end Signature

namespace Term

mutual

/-- The text of a term by name. -/
def named (σ : Signature) : Term → String
  | .var x => σ.variableText x
  | .app f args => σ.functionText f ++ argumentText ", " (namedList σ args)

def namedList (σ : Signature) : List Term → List String
  | [] => []
  | t :: ts => t.named σ :: namedList σ ts

end

@[simp] theorem namedList_eq (σ : Signature) (ts : List Term) :
    namedList σ ts = ts.map (named σ) := by
  induction ts with
  | nil => rfl
  | cons t ts ih => simp [namedList, ih]

end Term

/-- An equation is written with a sign between its sides, and any other atom like a term. -/
def Atom.named (σ : Signature) (a : Atom) : String :=
  match a.sides? with
  | some (s, t) => s.named σ ++ " = " ++ t.named σ
  | none => σ.predicateText a.pred ++ argumentText ", " (Term.namedList σ a.args)

/-- The text of a literal by name. A negated equation has parentheses around it,
for the tilde would otherwise seem to belong to its left side. -/
def Literal.named (σ : Signature) (l : Literal) : String :=
  if l.negated then
    if l.atom.sides?.isSome then "~(" ++ l.atom.named σ ++ ")" else "~" ++ l.atom.named σ
  else l.atom.named σ

namespace Clause

/-- The literals of a clause with bars between them. -/
def named (σ : Signature) (c : Clause) : String :=
  disjunctionText (c.literals.map (Literal.named σ))

/-- The name under which a clause is written: its own one, or else one made from
a running number. -/
def writtenName (c : Clause) (index : Nat) : String :=
  c.label?.getD ("derived_" ++ toString index)

/-- A clause as an annotated formula. -/
def annotated (σ : Signature) (c : Clause) (index : Nat) : String :=
  match c.provenance with
  | .derived rule parents =>
    "cnf(" ++ c.writtenName index ++ ", lemma, " ++ c.named σ ++ ", inference(" ++ rule.name ++
      ", [], [" ++ ", ".intercalate (parents.map fun p => p.getD "unknown") ++ "]))."
  | _ => "cnf(" ++ c.writtenName index ++ ", axiom, " ++ c.named σ ++ ")."

end Clause

end Clausal
