/-
Documents: whole problem texts as sequences of items. A statement is everything up
to a full stop, and every item is one statement, since a full stop stands at its
end and nowhere else in it. A document lists the items up to the first statement
that is none, and the position where that statement begins.

A statement that never comes to its full stop, because the text ends or something
stands there that is no word, is no item either.
-/
import Clausal.Problem.Gap
import Clausal.Problem.Grammar

set_option autoImplicit false

namespace Clausal.Problem

/-! ## Statements -/

/-- The words up to and including the first full stop, and the text after it. -/
def statement? (cs : List Char) : Option (List Token × List Char) :=
  match _h : Token.scan? (skipGaps cs) with
  | none => none
  | some (t, rest) =>
    if t = .fullStop then some ([t], rest)
    else (statement? rest).map fun s => (t :: s.1, s.2)
termination_by cs.length
decreasing_by
  have := Token.length_of_scan? _h
  have := length_skipGaps_le cs
  omega

/-- A statement takes a character at least, its full stop. -/
theorem length_of_statement? {cs : List Char} {s : List Token × List Char}
    (h : statement? cs = some s) : s.2.length < cs.length := by
  fun_induction statement? cs generalizing s with
  | case1 => cases h
  | case2 cs rest hscan =>
    cases h
    exact Nat.lt_of_lt_of_le (Token.length_of_scan? hscan) (length_skipGaps_le cs)
  | case3 cs t rest hscan _ ih =>
    obtain ⟨s', h', rfl⟩ := Option.map_eq_some_iff.1 h
    have := ih h'
    have := Token.length_of_scan? hscan
    have := length_skipGaps_le cs
    simp only
    omega

/-- The item that a text begins with, and the text after it. -/
def item? (cs : List Char) : Option (Item × List Char) := do
  let (words, rest) ← statement? cs
  let i ← Item.parse? words
  pure (i, rest)

/-- An item takes a character at least, so reading a document comes to an end. -/
theorem length_of_item? {cs : List Char} {i : Item × List Char} (h : item? cs = some i) :
    i.2.length < cs.length := by
  simp only [item?, Option.bind_eq_bind, Option.bind_eq_some_iff] at h
  obtain ⟨s, hs, i', _, h⟩ := h
  cases h
  exact length_of_statement? hs

/-! ## Documents -/

/-- The items of a text up to the first fault, and the position of the fault if
there is one. -/
structure Document where
  items : List Item
  fault : Option Nat
deriving Inhabited

namespace Document

/-- The document in a text before which `start` characters have been read. -/
def ofTextAt (start : Nat) (cs : List Char) : Document :=
  if skipGaps cs = [] then ⟨[], none⟩
  else
    match _h : item? (skipGaps cs) with
    | none => ⟨[], some (start + (cs.length - (skipGaps cs).length))⟩
    | some (i, rest) =>
      let d := ofTextAt (start + (cs.length - rest.length)) rest
      ⟨i :: d.items, d.fault⟩
termination_by cs.length
decreasing_by
  have := length_of_item? _h
  have := length_skipGaps_le cs
  simp only at *
  omega

/-- The document of a text, with the fault counted from its beginning. -/
def ofText (cs : List Char) : Document := ofTextAt 0 cs

/-- The document of some bytes, each taken for one character. -/
def ofBytes (bytes : List UInt8) : Document :=
  ofText (bytes.map fun b => Char.ofNat b.toNat)

end Document

end Clausal.Problem
