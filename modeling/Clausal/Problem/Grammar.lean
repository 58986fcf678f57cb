/-
The grammar of items: a clause or a formula with its name, its role and its
annotations, or the inclusion of another text. The main entry is `Item.parse?`,
which takes all the words of a statement or fails.
-/
import Clausal.Problem.Formula
import Clausal.Problem.TypedFormula

set_option autoImplicit false

namespace Clausal.Problem

namespace Parser

/-! ## Annotations -/

/-- A list in brackets, perhaps an empty one. -/
def bracketed (p : Parser Unit) (fuel : Nat) : Parser Unit := do
  expect "["
  if ← accept "]" then pure ()
  else
    discard (separated "," p fuel)
    expect "]"

/-- Where a formula comes from: a list, or a piece of data with perhaps more after
a colon. A piece of data may hold a clause, a formula or a term behind a word that
says so. -/
def source : Nat → Parser Unit
  | 0 => failure
  | fuel + 1 => do
    match ← get with
    | .mark "[" :: _ => bracketed (source fuel) fuel
    | _ =>
      match ← next with
      | .lower _ | .quoted _ => discard (arguments (source fuel) fuel)
      | .upper _ | .integer _ | .number _ | .object _ => pure ()
      | .defined "$cnf" => do expect "("; discard (clause fuel); expect ")"
      | .defined "$fof" => do expect "("; formula fuel; expect ")"
      | .defined "$tff" => do expect "("; typedFormula fuel; expect ")"
      | .defined "$fot" => do expect "("; discard (expr fuel); expect ")"
      | _ => failure
      if ← accept ":" then source fuel else pure ()

/-- The annotations behind a formula: where it comes from, and a list of further
remarks. Both may be left out, and the remarks alone too. -/
def annotations (fuel : Nat) : Parser Unit := do
  if ← accept "," then
    source fuel
    if ← accept "," then bracketed (source fuel) fuel else pure ()
  else pure ()

/-! ## Items -/

/-- The name of an item: a word that begins with a small letter, a quoted name or an integer. -/
def name : Parser String := do
  match ← next with
  | .lower s | .quoted s | .integer s => pure s
  | _ => failure

/-- The role of a formula, any word that begins with a small letter. -/
def role : Parser String := do
  match ← next with
  | .lower s => pure s
  | _ => failure

/-- The words around the body of a formula; the name of the formula and the body
are returned. -/
def annotated {α : Type} (body : Parser α) (fuel : Nat) : Parser (String × α) := do
  expect "("
  let n ← name
  expect ","
  discard role
  expect ","
  let a ← body
  annotations fuel
  expect ")"
  expect "."
  pure (n, a)

/-- The name of a file with the single quotes taken off it, and out of it. -/
def fileName : Parser String := do
  match ← next with
  | .quoted s => pure (String.ofList (s.toList.filter (· != '\'')))
  | _ => failure

/-- The words of an inclusion after the first. -/
def inclusion (fuel : Nat) : Parser Item := do
  expect "("
  let file ← fileName
  let selection ←
    if ← accept "," then
      expect "["
      let names ← separated "," name fuel
      expect "]"
      pure (some names)
    else pure none
  expect ")"
  expect "."
  pure (.inclusion file selection)

/-- An item whose words are spelled `spelling` all together. -/
def item (fuel : Nat) (spelling : String) : Parser Item := do
  match ← next with
  | .lower "cnf" =>
    let (n, literals) ← annotated (clause fuel) fuel
    pure (.clause n literals)
  | .lower "fof" =>
    discard (annotated (formula fuel) fuel)
    pure (.formula spelling)
  | .lower "tff" =>
    discard (annotated (typedFormula fuel) fuel)
    pure (.formula spelling)
  | .lower "include" => inclusion fuel
  | _ => failure

end Parser

/-- The item that a list of words makes up. -/
def Item.parse? (words : List Token) : Option Item :=
  match Parser.item (words.length + 1) (String.join (words.map Token.text)) words with
  | some (i, []) => some i
  | _ => none

end Clausal.Problem
