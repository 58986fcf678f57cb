/-
Gaps: the blanks and comments that may stand between two words of a problem text.
A text is read byte by byte, each byte taken as the character of the same number,
so that positions count bytes and a comment may hold anything.

A block comment ends at the first place where it can. A line comment reaches to
the end of its line, which is a line feed with or without a carriage return
before it; a carriage return that stands alone, or a text that ends before the
line does, makes it no comment at all. What is not a complete comment is not
skipped.
-/

set_option autoImplicit false

namespace Clausal.Problem

/-- Space, tab, line feed and carriage return. -/
def isBlank (c : Char) : Bool := c == ' ' || c == '\t' || c == '\n' || c == '\r'

/-- What follows the end of a block comment. -/
def afterBlock? : List Char → Option (List Char)
  | '*' :: '/' :: cs => some cs
  | _ :: cs => afterBlock? cs
  | [] => none

/-- What follows the end of a line comment. -/
def afterLine? : List Char → Option (List Char)
  | '\n' :: cs => some cs
  | '\r' :: '\n' :: cs => some cs
  | '\r' :: _ => none
  | _ :: cs => afterLine? cs
  | [] => none

/-- What follows one blank or one complete comment. -/
def afterGap? : List Char → Option (List Char)
  | '/' :: '*' :: cs => afterBlock? cs
  | '%' :: cs => afterLine? cs
  | c :: cs => if isBlank c then some cs else none
  | [] => none

/-- A comment in a block takes a character at least. -/
theorem length_of_afterBlock? {cs rest : List Char} (h : afterBlock? cs = some rest) :
    rest.length < cs.length := by
  fun_induction afterBlock? cs with
  | case1 cs => cases h; simp only [List.length_cons]; omega
  | case2 c cs _ ih => have := ih h; simp only [List.length_cons]; omega
  | case3 => cases h

/-- A comment to the end of a line takes a character at least. -/
theorem length_of_afterLine? {cs rest : List Char} (h : afterLine? cs = some rest) :
    rest.length < cs.length := by
  fun_induction afterLine? cs with
  | case1 cs => cases h; simp
  | case2 cs => cases h; simp only [List.length_cons]; omega
  | case3 => cases h
  | case4 c cs _ _ _ ih => have := ih h; simp only [List.length_cons]; omega
  | case5 => cases h

/-- Every gap takes a character, so skipping them comes to an end. -/
theorem length_of_afterGap? {cs rest : List Char} (h : afterGap? cs = some rest) :
    rest.length < cs.length := by
  unfold afterGap? at h
  split at h
  · have := length_of_afterBlock? h; simp only [List.length_cons]; omega
  · have := length_of_afterLine? h; simp only [List.length_cons]; omega
  · split at h
    · cases h; simp
    · cases h
  · cases h

/-- The text without the blanks and complete comments at its front. -/
def skipGaps (cs : List Char) : List Char :=
  match _h : afterGap? cs with
  | some rest => skipGaps rest
  | none => cs
termination_by cs.length
decreasing_by exact length_of_afterGap? _h

theorem length_skipGaps_le (cs : List Char) : (skipGaps cs).length ≤ cs.length := by
  fun_induction skipGaps cs with
  | case1 cs rest h ih => have := length_of_afterGap? h; omega
  | case2 cs h => exact Nat.le_refl _

end Clausal.Problem
