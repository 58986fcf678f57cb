/-
Parsers on words. A parser looks at the words from the front, takes some of them,
and fails without saying why.

The nesting of terms, formulas and annotations is bounded by the number of words,
and so is the length of every list. The parsers that recurse count down such a
bound, called `fuel`; whoever starts one gives it more than can be used up.
-/
import Clausal.Problem.Token

set_option autoImplicit false

namespace Clausal.Problem

/-- A parser takes words off the front of a list, or fails. -/
abbrev Parser := StateT (List Token) Option

namespace Parser

/-- Takes the next word, whatever it is. -/
def next : Parser Token
  | [] => none
  | t :: ts => some (t, ts)

/-- Takes the mark, which has to come next. -/
def expect (mark : String) : Parser Unit
  | t :: ts => if t = .mark mark then some ((), ts) else none
  | [] => none

/-- Takes the given mark if it comes next, and tells whether it did. -/
def accept (mark : String) : Parser Bool
  | t :: ts => if t = .mark mark then some (true, ts) else some (false, t :: ts)
  | [] => some (false, [])

/-- Takes one of the given marks if one comes next, and tells whether it did. -/
def acceptAny (marks : List String) : Parser Bool
  | .mark m :: ts => if m ∈ marks then some (true, ts) else some (false, .mark m :: ts)
  | ts => some (false, ts)

/-- One or more of a kind, with a mark between any two. -/
def separated {α : Type} (mark : String) (p : Parser α) : Nat → Parser (List α)
  | 0 => failure
  | fuel + 1 => do
    let a ← p
    if ← accept mark then
      let rest ← separated mark p fuel
      pure (a :: rest)
    else pure [a]

/-- A parenthesised list with commas if a parenthesis comes next, and otherwise
nothing. -/
def arguments {α : Type} (p : Parser α) (fuel : Nat) : Parser (List α) := do
  if ← accept "(" then
    let args ← separated "," p fuel
    expect ")"
    pure args
  else pure []

/-- Fails unless a condition holds of what has been parsed. -/
def require {α : Type} (condition : α → Bool) (a : α) : Parser Unit :=
  if condition a then pure () else failure

/-! ## What all formulas have in common -/

/-- The variables of a quantifier: a list in brackets, and a colon. -/
def binder (variableName : Parser Unit) (fuel : Nat) : Parser Unit := do
  expect "["
  discard (separated "," variableName fuel)
  expect "]"
  expect ":"

/-- The connectives that join exactly two formulas. -/
def binaryConnectives : List String := ["=>", "<=", "<=>", "<~>", "~&", "~|"]

/-- What may follow the first part of a formula: more parts of a disjunction, more
parts of a conjunction, or a connective and a second part. -/
def connection (part : Parser Unit) (fuel : Nat) : Parser Unit := do
  if ← accept "|" then discard (separated "|" part fuel)
  else if ← accept "&" then discard (separated "&" part fuel)
  else if ← acceptAny binaryConnectives then part
  else pure ()

end Parser

end Clausal.Problem
