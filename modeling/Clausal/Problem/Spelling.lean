/-
Reading names and numerals off the front of a text. Each reader splits the text
in two, what it takes and what it leaves, and beside it stands the fact that
nothing is lost: the two parts make up the text, and the first one is not empty.

Only ASCII characters have a meaning here. A quoted name keeps its quotes and its
backslashes, and a numeral its sign and its zeros: for a name nothing matters but
the spelling.
-/

set_option autoImplicit false

namespace Clausal.Problem

/-- A front part of a text and the rest of it. -/
abbrev Split := List Char × List Char

/-- The two parts make up the text, and the first one is not empty. -/
def IsSplit (cs : List Char) (s : Split) : Prop := cs = s.1 ++ s.2 ∧ s.1 ≠ []

theorem IsSplit.cons {cs : List Char} {s : Split} (c : Char) (h : IsSplit cs s) :
    IsSplit (c :: cs) (c :: s.1, s.2) :=
  ⟨by rw [h.1]; rfl, List.cons_ne_nil c s.1⟩

/-! ## Words and quoted names -/

/-- Letters, digits and the underscore continue a word. -/
def isWordChar (c : Char) : Bool := c.isAlphanum || c == '_'

/-- The rest of a word of which one character has been read. -/
def word (c : Char) (cs : List Char) : Split :=
  (c :: cs.takeWhile isWordChar, cs.dropWhile isWordChar)

/-- A word is cut off the front of the text. -/
theorem isSplit_word (c : Char) (cs : List Char) : IsSplit (c :: cs) (word c cs) :=
  ⟨by simp [word], List.cons_ne_nil _ _⟩

/-- A word that begins with a small letter. -/
def lowerWord? (cs : List Char) : Option Split :=
  match cs with
  | c :: cs => if c.isLower then some (word c cs) else none
  | [] => none

/-- A word that begins with a small letter is cut off the front of the text. -/
theorem isSplit_of_lowerWord? {cs : List Char} {s : Split} (h : lowerWord? cs = some s) :
    IsSplit cs s := by
  unfold lowerWord? at h
  split at h
  · split at h
    · cases h; exact isSplit_word _ _
    · cases h
  · cases h

/-- ASCII characters that have an image, the space among them. -/
def isPrintable (c : Char) : Bool := ' ' ≤ c && c ≤ '~'

/-- The rest of a quoted name up to and including the closing quote. The quote
itself and the backslash must have a backslash before them, and nothing else may
have one. -/
def quotedRest? (quote : Char) : List Char → Option Split
  | '\\' :: c :: cs =>
    if c == '\\' || c == quote then
      (quotedRest? quote cs).map fun s => ('\\' :: c :: s.1, s.2)
    else none
  | c :: cs =>
    if c == quote then some ([c], cs)
    else if isPrintable c && c != '\\' then
      (quotedRest? quote cs).map fun s => (c :: s.1, s.2)
    else none
  | [] => none

/-- The rest of a quoted name is cut off the front of the text, up to the closing quote. -/
theorem isSplit_of_quotedRest? {quote : Char} {cs : List Char} {s : Split}
    (h : quotedRest? quote cs = some s) : IsSplit cs s := by
  fun_induction quotedRest? quote cs generalizing s with
  | case1 c cs _ ih =>
    obtain ⟨s', h', rfl⟩ := Option.map_eq_some_iff.1 h
    exact ((ih h').cons c).cons '\\'
  | case2 => cases h
  | case3 c cs => cases h; exact ⟨rfl, List.cons_ne_nil _ _⟩
  | case4 c cs _ _ _ ih =>
    obtain ⟨s', h', rfl⟩ := Option.map_eq_some_iff.1 h
    exact (ih h').cons c
  | case5 => cases h
  | case6 => cases h

/-! ## Parts of numerals -/

/-- A nonempty run of digits. -/
def digits? (cs : List Char) : Option Split :=
  match cs with
  | c :: cs =>
    if c.isDigit then some (c :: cs.takeWhile Char.isDigit, cs.dropWhile Char.isDigit) else none
  | [] => none

/-- A run of digits is cut off the front of the text. -/
theorem isSplit_of_digits? {cs : List Char} {s : Split} (h : digits? cs = some s) :
    IsSplit cs s := by
  unfold digits? at h
  split at h
  · split at h
    · cases h; exact ⟨by simp, List.cons_ne_nil _ _⟩
    · cases h
  · cases h

/-- A run of digits that does not begin with a zero. -/
def positive? (cs : List Char) : Option Split :=
  match cs with
  | '0' :: _ => none
  | _ => digits? cs

/-- A whole number without a sign: a zero, or digits that do not begin with one. -/
def natural? (cs : List Char) : Option Split :=
  match cs with
  | '0' :: cs => some (['0'], cs)
  | _ => digits? cs

theorem isSplit_of_natural? {cs : List Char} {s : Split} (h : natural? cs = some s) :
    IsSplit cs s := by
  unfold natural? at h
  split at h
  · cases h; exact ⟨rfl, List.cons_ne_nil _ _⟩
  · exact isSplit_of_digits? h

/-- Puts a sign before what a reader takes, if there is one. -/
def signed? (read : List Char → Option Split) (cs : List Char) : Option Split :=
  match cs with
  | '+' :: cs => (read cs).map fun s => ('+' :: s.1, s.2)
  | '-' :: cs => (read cs).map fun s => ('-' :: s.1, s.2)
  | _ => read cs

/-- Behind a sign a reader cuts off as much as without one, and the sign besides. -/
theorem isSplit_of_signed? {read : List Char → Option Split}
    (hread : ∀ {cs s}, read cs = some s → IsSplit cs s) {cs : List Char} {s : Split}
    (h : signed? read cs = some s) : IsSplit cs s := by
  unfold signed? at h
  split at h
  · obtain ⟨s', h', rfl⟩ := Option.map_eq_some_iff.1 h
    exact (hread h').cons '+'
  · obtain ⟨s', h', rfl⟩ := Option.map_eq_some_iff.1 h
    exact (hread h').cons '-'
  · exact hread h

/-- An exponent: a letter `e` of either case, a sign if wanted, and digits. -/
def exponent? (cs : List Char) : Option Split :=
  match cs with
  | c :: cs =>
    if c == 'e' || c == 'E' then (signed? digits? cs).map fun s => (c :: s.1, s.2) else none
  | [] => none

/-- An exponent is cut off the front of the text. -/
theorem isSplit_of_exponent? {cs : List Char} {s : Split} (h : exponent? cs = some s) :
    IsSplit cs s := by
  unfold exponent? at h
  split at h
  · split at h
    · obtain ⟨s', h', rfl⟩ := Option.map_eq_some_iff.1 h
      exact (isSplit_of_signed? isSplit_of_digits? h').cons _
    · cases h
  · cases h

/-- The decimal places: a point, digits, and perhaps an exponent. -/
def places? (cs : List Char) : Option Split :=
  match cs with
  | '.' :: cs =>
    (digits? cs).map fun d =>
      match exponent? d.2 with
      | some e => ('.' :: d.1 ++ e.1, e.2)
      | none => ('.' :: d.1, d.2)
  | _ => none

/-- Decimal places are cut off the front of the text, with an exponent or without. -/
theorem isSplit_of_places? {cs : List Char} {s : Split} (h : places? cs = some s) :
    IsSplit cs s := by
  unfold places? at h
  split at h
  · obtain ⟨d, hd, rfl⟩ := Option.map_eq_some_iff.1 h
    have hd := isSplit_of_digits? hd
    split
    · next e he => exact ⟨by simp [hd.1, (isSplit_of_exponent? he).1], List.cons_ne_nil _ _⟩
    · exact hd.cons '.'
  · cases h

/-- The denominator of a fraction, with its stroke. -/
def denominator? (cs : List Char) : Option Split :=
  match cs with
  | '/' :: cs => (positive? cs).map fun s => ('/' :: s.1, s.2)
  | _ => none

theorem isSplit_of_denominator? {cs : List Char} {s : Split} (h : denominator? cs = some s) :
    IsSplit cs s := by
  unfold denominator? at h
  split at h
  · obtain ⟨s', h', rfl⟩ := Option.map_eq_some_iff.1 h
    unfold positive? at h'
    split at h'
    · cases h'
    · exact (isSplit_of_digits? h').cons '/'
  · cases h

end Clausal.Problem
