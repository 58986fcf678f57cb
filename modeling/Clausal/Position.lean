/-
Positions. The nodes of a term are numbered in depth-first, left-to-right order,
the term itself being node 0; so the first argument of an application is node 1
and each further argument starts where the one before it ends. The nodes of an
atom are numbered alike. Node 0 of an atom is the atom, which is no term, so it
can be neither returned as a subterm nor replaced by one.

An index is passed down relative to the subtree it falls into, while a failure
always reports the index that was asked for.
-/
import Clausal.InferenceError

set_option autoImplicit false

namespace Clausal

/-! ## Terms -/

namespace Term

mutual

/-- The node of a term with the given number. -/
def node? : Term → Nat → Option Term
  | t, 0 => some t
  | .var _, _ + 1 => none
  | .app _ args, i + 1 => nodeList? args i

/-- The node of an argument list with the given number, the first argument being
node 0. -/
def nodeList? : List Term → Nat → Option Term
  | [], _ => none
  | t :: ts, i => if i < t.size then t.node? i else nodeList? ts (i - t.size)

end

mutual

/-- Puts a term in place of the node with the given number; a number that no
node has changes nothing. -/
def replaceNode (r : Term) : Term → Nat → Term
  | _, 0 => r
  | .var x, _ + 1 => .var x
  | .app f args, i + 1 => .app f (replaceNodeList r args i)

def replaceNodeList (r : Term) : List Term → Nat → List Term
  | [], _ => []
  | t :: ts, i =>
    if i < t.size then replaceNode r t i :: ts else t :: replaceNodeList r ts (i - t.size)

end

/-- The subterm at a number, or the complaint that there is none. -/
def subtermAt (t : Term) (i : Nat) : Except InferenceError Term :=
  match t.node? i with
  | some s => .ok s
  | none => .error (.indexOutOfRange i t.size)

/-- The term with the subterm at a position replaced. It is an error if this
would change nothing. -/
def replaceAt (t : Term) (i : Nat) (r : Term) : Except InferenceError Term := do
  let s ← t.subtermAt i
  if s = r then throw (.degenerateReplacement i) else pure (replaceNode r t i)

end Term

/-! ## Atoms and propositions -/

namespace Atom

/-- The subterm at a number. The atom itself has the number 0, and is no term. -/
def subtermAt (a : Atom) : Nat → Except InferenceError Term
  | 0 => .error (.invalidPosition 0)
  | i + 1 =>
    match Term.nodeList? a.args i with
    | some s => .ok s
    | none => .error (.indexOutOfRange (i + 1) a.size)

/-- The atom with the subterm at a position replaced. It is an error if this
would change nothing. -/
def replaceAt (a : Atom) (i : Nat) (r : Term) : Except InferenceError Atom := do
  let s ← a.subtermAt i
  if s = r then throw (.degenerateReplacement i)
  else pure ⟨a.pred, Term.replaceNodeList r a.args (i - 1)⟩

end Atom

namespace Proposition

/-- The subterm of a term or of an atom. -/
def subtermAt (p : Proposition) (i : Nat) : Except InferenceError Term :=
  match p with
  | .term t => t.subtermAt i
  | .atom a => a.subtermAt i

/-- The proposition with the subterm at a position replaced. -/
def replaceAt (p : Proposition) (i : Nat) (r : Term) : Except InferenceError Proposition :=
  match p with
  | .term t => .term <$> t.replaceAt i r
  | .atom a => .atom <$> a.replaceAt i r

end Proposition

end Clausal
