/-
What a problem text says, before any name has been given a number. A text is a
sequence of items: clauses, formulas that are not clauses, and requests to
include another text. Of a clause the whole structure is kept; of any other
formula only its spelling, since nothing but a complaint is made of it.

Names are kept as spelled, so a quoted name differs from the same name without
quotes. `Expr.text` spells an expression without any gap.
-/
import Clausal.Rendering.Numbered

set_option autoImplicit false

namespace Clausal.Problem

/-- A term as it stands in a text. -/
inductive Expr where
  | var (name : String)
  /-- A name with its arguments, of which there may be none. -/
  | apply (name : String) (args : List Expr)
  /-- A number or a distinct object. -/
  | constant (spelling : String)
  /-- A word with dollar signs before it, with its arguments. -/
  | reserved (name : String) (args : List Expr)
deriving Inhabited

namespace Expr

mutual

/-- The spelling of a term without gaps. -/
def text : Expr → String
  | .var name => name
  | .apply name args => name ++ argumentText "," (textList args)
  | .constant spelling => spelling
  | .reserved name args => name ++ argumentText "," (textList args)

def textList : List Expr → List String
  | [] => []
  | e :: es => e.text :: textList es

end

end Expr

/-- An atom as it stands in a text. -/
inductive AtomExpr where
  | plain (name : String) (args : List Expr)
  | reserved (name : String) (args : List Expr)
  | equation (lhs rhs : Expr)
deriving Inhabited

/-- A literal as it stands in a text. A denied equation has a form of its own,
besides the negation of an equation. -/
inductive LiteralExpr where
  | positive (atom : AtomExpr)
  | negative (atom : AtomExpr)
  | inequation (lhs rhs : Expr)
deriving Inhabited

/-- What a document is made of. -/
inductive Item where
  | clause (name : String) (literals : List LiteralExpr)
  /-- A formula that is no clause, as it is spelled without gaps. -/
  | formula (spelling : String)
  /-- Another text to be included, and the names of the formulas to be taken from
  it if not all are. -/
  | inclusion (file : String) (selection : Option (List String))
deriving Inhabited

end Clausal.Problem
