/-
The grammar of terms, of clauses, and of first-order formulas without types. One
word of lookahead decides everywhere which way to go on, so every parser here is
deterministic, and the first failure is final. Of a formula that is no clause only
the correct form is checked.

A word after two dollar signs that stands where an atom may stand is the predicate
of that atom, even if an equality sign follows. Only the first term of a positive
literal, and the sides of a denied equation, are free from this.
-/
import Clausal.Problem.Item
import Clausal.Problem.Parser

set_option autoImplicit false

namespace Clausal.Problem

namespace Parser

/-! ## Terms and clauses -/

def expr : Nat → Parser Expr
  | 0 => failure
  | fuel + 1 => do
    match ← next with
    | .upper x => pure (.var x)
    | .lower f | .quoted f => .apply f <$> arguments (expr fuel) fuel
    | .integer s | .number s | .object s => pure (.constant s)
    | .defined d | .system d => .reserved d <$> arguments (expr fuel) fuel
    | .mark _ => failure

/-- The atom that a term is by itself, which has to be a name or a reserved word
with its arguments. -/
def predication : Expr → Parser AtomExpr
  | .apply p args => pure (.plain p args)
  | .reserved p args => pure (.reserved p args)
  | _ => failure

/-- The atom that begins with a given term: an equation if it goes on as one, and
otherwise the term by itself. -/
def equationOrPredication (fuel : Nat) (e : Expr) : Parser AtomExpr := do
  if ← accept "=" then .equation e <$> expr fuel else predication e

/-- Tells whether a word after two dollar signs comes next, and takes nothing. -/
def atSystemWord : Parser Bool
  | .system w :: ts => some (true, .system w :: ts)
  | ts => some (false, ts)

/-- The atom under a negation. A word after two dollar signs is the predicate of
such an atom, and never stands on the left of an equation. -/
def negatedAtom (fuel : Nat) : Parser AtomExpr := do
  if ← atSystemWord then expr fuel >>= predication
  else expr fuel >>= equationOrPredication fuel

def literal (fuel : Nat) : Parser LiteralExpr := do
  if ← accept "~" then .negative <$> negatedAtom fuel
  else
    let e ← expr fuel
    if ← accept "!=" then .inequation e <$> expr fuel
    else .positive <$> equationOrPredication fuel e

/-- A clause, perhaps in parentheses. -/
def clause (fuel : Nat) : Parser (List LiteralExpr) := do
  if ← accept "(" then
    let literals ← separated "|" (literal fuel) fuel
    expect ")"
    pure literals
  else separated "|" (literal fuel) fuel

/-! ## Formulas -/

/-- A variable, as a quantifier lists them. -/
def variableName : Parser Unit := do
  match ← next with
  | .upper _ => pure ()
  | _ => failure

/-- An atom or a denied equation. -/
def atomic (fuel : Nat) : Parser Unit := do
  let system ← atSystemWord
  let e ← expr fuel
  if ← accept "!=" then discard (expr fuel)
  else if system then discard (predication e)
  else discard (equationOrPredication fuel e)

/-- A part of a formula: a negation, a quantified part, a formula in parentheses,
an atom or a denied equation. -/
def formulaPart : Nat → Parser Unit
  | 0 => failure
  | fuel + 1 => do
    if ← accept "~" then formulaPart fuel
    else if ← acceptAny ["!", "?"] then
      binder variableName fuel
      formulaPart fuel
    else if ← accept "(" then
      formulaPart fuel
      connection (formulaPart fuel) fuel
      expect ")"
    else atomic fuel

def formula (fuel : Nat) : Parser Unit := do
  formulaPart fuel
  connection (formulaPart fuel) fuel

end Parser

end Clausal.Problem
