/-
The words of a problem text: names, numerals, and the marks that hold them
together. A word is always the longest that can be read, so `!=` is one word and
not two. The main fact is `Token.scan?_eq_some`: a word is taken off the front of
the text and nothing is lost.
-/
import Clausal.Problem.Spelling

set_option autoImplicit false

namespace Clausal.Problem

/-- A word of a problem text. -/
inductive Token where
  /-- A word that begins with a small letter. -/
  | lower (text : String)
  /-- A word that begins with a capital letter. -/
  | upper (text : String)
  /-- A name in single quotes. -/
  | quoted (text : String)
  /-- A distinct object, in double quotes. -/
  | object (text : String)
  /-- A whole number. -/
  | integer (text : String)
  /-- A fraction or a decimal number. -/
  | number (text : String)
  /-- A word after a dollar sign. -/
  | defined (text : String)
  /-- A word after two dollar signs. -/
  | system (text : String)
  | mark (text : String)
deriving DecidableEq, Inhabited

namespace Token

/-- The characters of a word as they are written. -/
def text : Token → String
  | lower s | upper s | quoted s | object s | integer s | number s | defined s | system s
  | mark s => s

/-- The end of a statement. -/
def fullStop : Token := .mark "."

end Token

/-! ## Reading one word -/

/-- A number: the whole part, and then an exponent, decimal places or a
denominator, whichever there is. -/
def number? (cs : List Char) : Option (Token × List Char) :=
  (signed? natural? cs).map fun i =>
    match ((exponent? i.2).or (places? i.2)).or (denominator? i.2) with
    | some s => (.number (String.ofList (i.1 ++ s.1)), s.2)
    | none => (.integer (String.ofList i.1), i.2)

/-- The marks, where a longer one stands before every shorter one that it begins
with. -/
def marks : List String :=
  ["<=>", "<~>", "<=", "!=", "!>", "!", "=>", "=", ">", "~&", "~|", "~", "|", "&", "?", "*", "(",
    ")", "[", "]", ",", ".", ":"]

/-- Reads a mark, the first one of the table that fits. -/
def mark? (cs : List Char) : Option (Token × List Char) :=
  marks.findSome? fun m =>
    if m.toList.isPrefixOf cs then some (.mark m, cs.drop m.toList.length) else none

/-- Reads one word off the front of a text that begins with no gap. The first character decides
what kind of word it is. -/
def Token.scan? (cs : List Char) : Option (Token × List Char) :=
  match cs with
  | [] => none
  | '\'' :: cs => (quotedRest? '\'' cs).map fun s => (.quoted (String.ofList ('\'' :: s.1)), s.2)
  | '"' :: cs => (quotedRest? '"' cs).map fun s => (.object (String.ofList ('"' :: s.1)), s.2)
  | '$' :: '$' :: cs =>
    (lowerWord? cs).map fun s => (.system (String.ofList ('$' :: '$' :: s.1)), s.2)
  | '$' :: cs => (lowerWord? cs).map fun s => (.defined (String.ofList ('$' :: s.1)), s.2)
  | c :: rest =>
    if c.isLower then
      let (w, rest) := word c rest
      some (.lower (String.ofList w), rest)
    else if c.isUpper then
      let (w, rest) := word c rest
      some (.upper (String.ofList w), rest)
    else if c.isDigit || c == '+' || c == '-' then number? cs
    else mark? cs

/-! ## Nothing is lost -/

namespace Token

/-- The word is the front part of the text. -/
def Fronts (cs : List Char) (t : Token × List Char) : Prop :=
  IsSplit cs (t.1.text.toList, t.2)

theorem fronts_of_number? {cs : List Char} {t : Token × List Char} (h : number? cs = some t) :
    Fronts cs t := by
  obtain ⟨i, hi, rfl⟩ := Option.map_eq_some_iff.1 h
  have hi := isSplit_of_signed? isSplit_of_natural? hi
  split
  · next s hs =>
    have hs : IsSplit i.2 s := by
      simp only [Option.or_eq_some_iff] at hs
      rcases hs with (hs | ⟨_, hs⟩) | ⟨_, hs⟩
      · exact isSplit_of_exponent? hs
      · exact isSplit_of_places? hs
      · exact isSplit_of_denominator? hs
    exact ⟨by simp [text, hi.1, hs.1], by simp [text, hi.2]⟩
  · exact ⟨by simp [text, hi.1], by simp [text, hi.2]⟩

theorem fronts_of_mark? {cs : List Char} {t : Token × List Char} (h : mark? cs = some t) :
    Fronts cs t := by
  obtain ⟨m, hm, h⟩ := List.exists_of_findSome?_eq_some h
  have hne : ∀ m ∈ marks, m.toList ≠ [] := by decide
  split at h
  · next hfront =>
    cases h
    exact ⟨(List.prefix_iff_eq_append.1 (List.isPrefixOf_iff_prefix.1 hfront)).symm, hne m hm⟩
  · cases h

/-- Scanning takes a word off the front of the text and leaves the rest. -/
theorem scan?_eq_some {cs : List Char} {t : Token × List Char} (h : scan? cs = some t) :
    Fronts cs t := by
  unfold scan? at h
  -- by what comes first: nothing, a quote, two dollar signs, one, or any other character
  split at h
  · cases h
  · obtain ⟨s, hs, rfl⟩ := Option.map_eq_some_iff.1 h
    simpa [Fronts, text] using (isSplit_of_quotedRest? hs).cons '\''
  · obtain ⟨s, hs, rfl⟩ := Option.map_eq_some_iff.1 h
    simpa [Fronts, text] using (isSplit_of_quotedRest? hs).cons '"'
  · obtain ⟨s, hs, rfl⟩ := Option.map_eq_some_iff.1 h
    simpa [Fronts, text] using ((isSplit_of_lowerWord? hs).cons '$').cons '$'
  · obtain ⟨s, hs, rfl⟩ := Option.map_eq_some_iff.1 h
    simpa [Fronts, text] using (isSplit_of_lowerWord? hs).cons '$'
  · next c rest _ _ _ _ =>
    have hw := isSplit_word c rest
    split at h
    · cases h; simpa [Fronts, text, word] using hw
    · split at h
      · cases h; simpa [Fronts, text, word] using hw
      · split at h
        · exact fronts_of_number? h
        · exact fronts_of_mark? h

/-- Every word takes a character, so reading words comes to an end. -/
theorem length_of_scan? {cs rest : List Char} {t : Token} (h : scan? cs = some (t, rest)) :
    rest.length < cs.length := by
  obtain ⟨hcs, hne⟩ := scan?_eq_some h
  have hpos := List.length_pos_iff.2 hne
  have hlen := congrArg List.length hcs
  simp only [List.length_append] at hlen hpos
  omega

end Token

end Clausal.Problem
