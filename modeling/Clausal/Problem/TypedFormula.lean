/-
The grammar of typed first-order formulas. Only the correct form is checked.

Formulas are terms here: an argument may be a formula, a variable may stand for
one, and a formula in parentheses may be a side of an equation. A number or a
distinct object is a term and no formula. Right after a negation sign stands no
equation, asserted or denied, unless in parentheses.

A typing gives a type to a symbol, in place of a formula. Types are made of atomic
ones by products, arrows and quantifiers, and these do not nest freely. A product
is in parentheses, where it may also have a single factor; a factor is an atomic
type or again a product; and an arrow leads from such a type to an atomic one.
-/
import Clausal.Problem.Parser

set_option autoImplicit false

namespace Clausal.Problem

/-! ## Types -/

/-- How a type is put together, as far as it decides where the type may stand. -/
inductive TypeShape where
  /-- A name with its arguments, or a variable. -/
  | atomic
  /-- Two or more factors with stars between them. -/
  | product
  /-- One or more factors in parentheses. -/
  | enclosedProduct
  /-- Two types with an arrow between them. -/
  | mapping
  /-- A mapping in parentheses. -/
  | enclosedMapping
  /-- A quantified type, or one in parentheses that is of no other shape. -/
  | general
deriving DecidableEq

namespace TypeShape

def enclose : TypeShape → TypeShape
  | atomic | product | enclosedProduct => enclosedProduct
  | mapping => enclosedMapping
  | enclosedMapping | general => general

/-- The type may stand on the left of an arrow, and between stars. -/
def isFactor (s : TypeShape) : Bool := s = atomic || s = enclosedProduct

/-- The type may be quantified. -/
def isScope (s : TypeShape) : Bool := s = atomic || s = enclosedMapping

/-- The type may be the type of a symbol. -/
def isWhole (s : TypeShape) : Bool := s != product && s != enclosedProduct

end TypeShape

namespace Parser

/-- A variable, as a quantifier lists them: with an atomic type, or without one. -/
def typedVariable (simple : Parser TypeShape) : Parser Unit := do
  match ← next with
  | .upper _ => if ← accept ":" then simple >>= require (· = .atomic) else pure ()
  | _ => failure

/-- The rest of a quantified type after the quantifier. -/
def quantifiedType (simple : Parser TypeShape) : Nat → Parser Unit
  | 0 => failure
  | fuel + 1 => do
    binder (typedVariable simple) fuel
    if ← accept "!>" then quantifiedType simple fuel
    else simple >>= require TypeShape.isScope

/-- A type made of simple ones. -/
def compoundType (simple : Parser TypeShape) (fuel : Nat) : Parser TypeShape := do
  if ← accept "!>" then
    quantifiedType simple fuel
    pure .general
  else
    let s ← simple
    if ← accept ">" then
      require TypeShape.isFactor s
      simple >>= require (· = .atomic)
      pure .mapping
    else if ← accept "*" then
      require TypeShape.isFactor s
      discard (separated "*" (simple >>= require TypeShape.isFactor) fuel)
      pure .product
    else pure s

/-- A simple type: an atomic one, or any type in parentheses. -/
def simpleType : Nat → Parser TypeShape
  | 0 => failure
  | fuel + 1 => do
    match ← next with
    | .upper _ | .defined _ => pure .atomic
    | .lower _ | .quoted _ =>
      discard (arguments (simpleType fuel >>= require (· = .atomic)) fuel)
      pure .atomic
    | .mark "(" =>
      let s ← compoundType (simpleType fuel) fuel
      expect ")"
      pure s.enclose
    | _ => failure

/-- A typing, perhaps in parentheses. -/
def typing : Nat → Parser Unit
  | 0 => failure
  | fuel + 1 => do
    match ← next with
    | .mark "(" =>
      typing fuel
      expect ")"
    | .lower _ | .quoted _ | .system _ =>
      expect ":"
      compoundType (simpleType fuel) fuel >>= require TypeShape.isWhole
    | _ => failure

/-! ## Formulas

The parsers tell whether what they have taken is a formula. -/

/-- A side of an equation, where `inner` parses the formulas inside it. -/
def typedTerm (inner : Parser Bool) (fuel : Nat) : Parser Bool := do
  match ← next with
  | .upper _ => pure true
  | .lower _ | .quoted _ | .defined _ | .system _ =>
    discard (arguments inner fuel)
    pure true
  | .integer _ | .number _ | .object _ => pure false
  | .mark "(" =>
    inner >>= require id
    expect ")"
    pure true
  | .mark _ => failure

/-- A formula with the given parts, or a number or a distinct object by itself. -/
def typedPhrase (part : Parser Bool) (fuel : Nat) : Parser Bool := do
  if ← part then
    connection (part >>= require id) fuel
    pure true
  else pure false

/-- A part of a formula, `negated` if a negation sign stands right before it: a
negation, a quantified part, a term or an equation, which may be denied. -/
def typedPart (negated : Bool) : Nat → Parser Bool
  | 0 => failure
  | fuel + 1 => do
    if ← accept "~" then
      typedPart true fuel >>= require id
      pure true
    else if ← acceptAny ["!", "?"] then
      binder (typedVariable (simpleType fuel)) fuel
      typedPart false fuel >>= require id
      pure true
    else
      let inner := typedPhrase (typedPart false fuel) fuel
      let isFormula ← typedTerm inner fuel
      if negated then pure isFormula
      else if ← acceptAny ["=", "!="] then
        discard (typedTerm inner fuel)
        pure true
      else pure isFormula

/-- A typed formula, or a typing in its place. -/
def typedFormula (fuel : Nat) : Parser Unit :=
  typing fuel <|> (typedPhrase (typedPart false fuel) fuel >>= require id)

end Parser

end Clausal.Problem
