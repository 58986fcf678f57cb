/-
Choosing entries of a list. An inference rule singles out one or two literals of
a clause and keeps the others as they stand, so the choices are listed together
with what is left over, in the order of the positions chosen.
-/

set_option autoImplicit false

namespace Clausal

variable {α : Type}

/-- Each entry of a list with the list of all others, first entry first. -/
def selections : List α → List (α × List α)
  | [] => []
  | a :: l => (a, l) :: (selections l).map fun s => (s.1, a :: s.2)

/-- Each pair of entries, the earlier one first, with the list of all others.
The pairs come in the lexicographic order of their positions. -/
def pairSelections : List α → List (α × α × List α)
  | [] => []
  | a :: l =>
    ((selections l).map fun s => (a, s.1, s.2)) ++
      (pairSelections l).map fun s => (s.1, s.2.1, a :: s.2.2)

@[simp] theorem length_selections (l : List α) : (selections l).length = l.length := by
  induction l with
  | nil => rfl
  | cons a l ih => simp [selections, ih]

/-- The selection at a position takes out the entry there. -/
theorem getElem?_selections (l : List α) (i : Nat) :
    (selections l)[i]? = l[i]?.map fun a => (a, l.eraseIdx i) := by
  induction l generalizing i with
  | nil => simp [selections]
  | cons a l ih =>
    cases i with
    | zero => simp [selections]
    | succ i => simp [selections, ih, Function.comp_def]

end Clausal
