/-
Words are read back. A word that has been read off a text is read again wherever it is
written, as long as what follows does not go on with it. So a name keeps its meaning when
it is taken from one text and written into another.

Each reader takes as much as it can, so for each of them the condition is that a
character of a certain kind does not come next (`Halts`). A written text puts a blank, a
comma, a bracket or a parenthesis behind every name and every number, and these continue
no word of any kind. The main fact is `Token.scan?_append`.
-/
import Clausal.Problem.Token

set_option autoImplicit false

namespace Clausal.Problem

/-! ## Kinds of characters -/

theorem isUpper_iff {c : Char} : c.isUpper = true ↔ 'A'.val ≤ c.val ∧ c.val ≤ 'Z'.val :=
  decide_eq_true_iff

theorem isLower_iff {c : Char} : c.isLower = true ↔ 'a'.val ≤ c.val ∧ c.val ≤ 'z'.val := by
  show (decide ('a'.val ≤ c.val) && decide (c.val ≤ 'z'.val)) = true ↔ _
  rw [Bool.and_eq_true, decide_eq_true_eq, decide_eq_true_eq]

theorem isDigit_iff {c : Char} : c.isDigit = true ↔ '0'.val ≤ c.val ∧ c.val ≤ '9'.val := by
  show (decide ('0'.val ≤ c.val) && decide (c.val ≤ '9'.val)) = true ↔ _
  rw [Bool.and_eq_true, decide_eq_true_eq, decide_eq_true_eq]

/-- Words are made of letters, digits and underscores. -/
theorem isWordChar_iff {c : Char} : isWordChar c = true ↔
    c.isUpper = true ∨ c.isLower = true ∨ c.isDigit = true ∨ c = '_' := by
  show ((c.isUpper || c.isLower) || c.isDigit || c == '_') = true ↔ _
  rw [Bool.or_eq_true, Bool.or_eq_true, Bool.or_eq_true, beq_iff_eq, or_assoc, or_assoc]

/-! ## What may follow a word -/

/-- No character of the kind comes next. -/
def Halts (kind : Char → Bool) : List Char → Prop
  | [] => True
  | c :: _ => kind c = false

/-- The characters that are written behind a word. -/
def isStop (c : Char) : Bool := c == ' ' || c == ',' || c == '(' || c == ')' || c == ']'

/-- Nothing comes next, or a character that is written behind a word. -/
def Stops : List Char → Prop
  | [] => True
  | c :: _ => isStop c = true

/-- What halts a kind halts every smaller kind. -/
theorem Halts.mono {kind kind' : Char → Bool} {rest : List Char} (h : Halts kind rest)
    (himp : ∀ c, kind' c = true → kind c = true) : Halts kind' rest := by
  match rest, h with
  | [], _ => trivial
  | c :: rest, h =>
    refine Bool.eq_false_iff.2 fun hc => ?_
    rw [Halts, Bool.eq_false_iff] at h
    exact h (himp c hc)

/-- A character that is written behind a word continues nothing that none of the five characters
does. -/
theorem Stops.halts {kind : Char → Bool} {rest : List Char} (h : Stops rest)
    (hkind : [' ', ',', '(', ')', ']'].any kind = false) : Halts kind rest := by
  match rest, h with
  | [], _ => trivial
  | c :: rest, h =>
    refine Bool.eq_false_iff.2 (List.any_eq_false.1 hkind c ?_)
    simp only [Stops, isStop, Bool.or_eq_true, beq_iff_eq, or_assoc] at h
    simpa only [List.mem_cons, List.not_mem_nil, or_false] using h

/-- A run of characters of one kind ends where the kind halts. -/
theorem takeWhile_append_of_halts {kind : Char → Bool} {front rest : List Char}
    (hfront : ∀ c ∈ front, kind c = true) (hrest : Halts kind rest) :
    (front ++ rest).takeWhile kind = front ∧ (front ++ rest).dropWhile kind = rest := by
  have hnone : rest.takeWhile kind = [] ∧ rest.dropWhile kind = rest := by
    match rest, hrest with
    | [], _ => exact ⟨rfl, rfl⟩
    | c :: rest, hc =>
      rw [Halts] at hc
      rw [List.takeWhile_cons, List.dropWhile_cons, hc]
      exact ⟨rfl, rfl⟩
  rw [List.takeWhile_append_of_pos hfront, List.dropWhile_append_of_pos hfront, hnone.1, hnone.2,
    List.append_nil]
  exact ⟨rfl, rfl⟩

/-! ## Words and quoted names -/

/-- A word ends where no word character comes next. -/
theorem word_append {c : Char} {w rest : List Char} (hw : ∀ d ∈ w, isWordChar d = true)
    (hrest : Halts isWordChar rest) : word c (w ++ rest) = (c :: w, rest) := by
  obtain ⟨htake, hdrop⟩ := takeWhile_append_of_halts hw hrest
  rw [word, htake, hdrop]

/-- What a reader has taken it takes again, if no character of the kind comes next. -/
def Rereads (read : List Char → Option Split) (kind : Char → Bool) : Prop :=
  ∀ {cs : List Char} {s : Split}, read cs = some s →
    ∀ {rest : List Char}, Halts kind rest → read (s.1 ++ rest) = some (s.1, rest)

/-- The word behind a dollar sign is read again. -/
theorem rereads_lowerWord? : Rereads lowerWord? isWordChar := by
  intro cs s h rest hrest
  unfold lowerWord? at h
  split at h
  · next c cs =>
    split at h
    · next hc =>
      obtain rfl := Option.some.inj h
      -- what has been taken are word characters
      have hw : ∀ d ∈ cs.takeWhile isWordChar, isWordChar d = true :=
        fun d hd => List.all_eq_true.1 List.all_takeWhile d hd
      show (if c.isLower then some (word c (cs.takeWhile isWordChar ++ rest)) else none) = _
      rw [if_pos hc, word_append hw hrest]
      rfl
    · cases h
  · cases h

/-- A closing quote ends the name whatever follows. -/
theorem quotedRest?_append {quote : Char} (hquote : quote ≠ '\\') {cs : List Char} {s : Split}
    (h : quotedRest? quote cs = some s) (rest : List Char) :
    quotedRest? quote (s.1 ++ rest) = some (s.1, rest) := by
  -- along the name: an escaped character, the closing quote, or a character that stands for
  -- itself
  fun_induction quotedRest? quote cs generalizing s with
  | case1 c cs hc ih =>
    obtain ⟨s', h', rfl⟩ := Option.map_eq_some_iff.1 h
    rw [List.cons_append, List.cons_append, quotedRest?, if_pos hc, ih h']
    rfl
  | case2 => cases h
  | case3 c cs hc hquote' =>
    obtain rfl := Option.some.inj h
    have hne : c ≠ '\\' := by
      rw [beq_iff_eq] at hquote'
      exact hquote' ▸ hquote
    rw [List.cons_append, List.nil_append, quotedRest?.eq_2, if_pos hquote']
    intro c' cs' h
    exact absurd h hne
  | case4 c cs hc hquote' hprintable ih =>
    obtain ⟨s', h', rfl⟩ := Option.map_eq_some_iff.1 h
    have hne : c ≠ '\\' := by
      rw [Bool.and_eq_true, bne_iff_ne] at hprintable
      exact hprintable.2
    rw [List.cons_append, quotedRest?.eq_2, if_neg hquote', if_pos hprintable, ih h']
    · rfl
    · intro c' cs' h
      exact absurd h hne
  | case5 => cases h
  | case6 => cases h

/-! ## Numbers -/

/-- The characters that may continue a number. -/
def isNumeralChar (c : Char) : Bool :=
  c.isDigit || c == 'e' || c == 'E' || c == '.' || c == '/'

/-- A run of digits is read again. -/
theorem rereads_digits? : Rereads digits? Char.isDigit := by
  intro cs s h rest hrest
  unfold digits? at h
  split at h
  · next c cs =>
    split at h
    · next hc =>
      obtain rfl := Option.some.inj h
      have hw : ∀ d ∈ cs.takeWhile Char.isDigit, d.isDigit = true :=
        fun d hd => List.all_eq_true.1 List.all_takeWhile d hd
      obtain ⟨htake, hdrop⟩ := takeWhile_append_of_halts hw hrest
      rw [List.cons_append, digits?, if_pos hc, htake, hdrop]
    · cases h
  · cases h

/-- What has been read begins as the text did. -/
theorem IsSplit.exists_cons {cs rest tail : List Char} {s : Split} {c : Char}
    (h : IsSplit cs s) (htail : s.1 ++ rest = c :: tail) : ∃ tail', cs = c :: tail' := by
  obtain ⟨hcs, hne⟩ := h
  obtain ⟨d, w, hw⟩ := List.exists_cons_of_ne_nil hne
  rw [hw] at htail hcs
  exact ⟨w ++ s.2, by rw [hcs, (List.cons.inj htail).1]; rfl⟩

/-- A number that does not begin with 0 is read again. It has its first digit from the old text,
so it does not begin with 0 now. -/
theorem rereads_positive? : Rereads positive? Char.isDigit := by
  intro cs s h rest hrest
  unfold positive? at h
  split at h
  · cases h
  · next hzero =>
    rw [← rereads_digits? h hrest, positive?]
    intro tail htail
    obtain ⟨tail', hcs⟩ := (isSplit_of_digits? h).exists_cons htail
    exact hzero tail' hcs

/-- A whole number without a sign is read again. -/
theorem rereads_natural? : Rereads natural? Char.isDigit := by
  intro cs s h rest hrest
  unfold natural? at h
  split at h
  · obtain rfl := Option.some.inj h
    rfl
  · next hzero =>
    rw [← rereads_digits? h hrest, natural?]
    intro tail htail
    obtain ⟨tail', hcs⟩ := (isSplit_of_digits? h).exists_cons htail
    exact hzero tail' hcs

/-- What reads again does so behind a sign. -/
theorem Rereads.signed? {read : List Char → Option Split} {kind : Char → Bool}
    (hread : Rereads read kind) (hsplit : ∀ {cs s}, read cs = some s → IsSplit cs s) :
    Rereads (signed? read) kind := by
  intro cs s h rest hrest
  unfold Problem.signed? at h
  split at h
  · obtain ⟨s', h', rfl⟩ := Option.map_eq_some_iff.1 h
    rw [List.cons_append, Problem.signed?, hread h' hrest]
    rfl
  · obtain ⟨s', h', rfl⟩ := Option.map_eq_some_iff.1 h
    rw [List.cons_append, Problem.signed?, hread h' hrest]
    rfl
  · next hplus hminus =>
    -- no sign was read, so none is read again
    rw [← hread h hrest, Problem.signed?]
    · intro tail htail
      obtain ⟨tail', hcs⟩ := (hsplit h).exists_cons htail
      exact hplus tail' hcs
    · intro tail htail
      obtain ⟨tail', hcs⟩ := (hsplit h).exists_cons htail
      exact hminus tail' hcs

/-- An exponent is read again. -/
theorem rereads_exponent? : Rereads exponent? Char.isDigit := by
  intro cs s h rest hrest
  unfold exponent? at h
  split at h
  · next c cs =>
    split at h
    · next hc =>
      obtain ⟨s', h', rfl⟩ := Option.map_eq_some_iff.1 h
      rw [List.cons_append, exponent?, if_pos hc,
        Rereads.signed? rereads_digits? isSplit_of_digits? h' hrest]
      rfl
    · cases h
  · cases h

/-- An exponent begins with its letter. -/
theorem halts_of_exponent? {cs : List Char} {s : Split} (h : exponent? cs = some s)
    (rest : List Char) : Halts Char.isDigit (s.1 ++ rest) := by
  unfold exponent? at h
  split at h
  · next c cs =>
    split at h
    · next hc =>
      obtain ⟨s', -, rfl⟩ := Option.map_eq_some_iff.1 h
      rw [Bool.or_eq_true, beq_iff_eq, beq_iff_eq] at hc
      rcases hc with rfl | rfl <;> rfl
    · cases h
  · cases h

/-- Where nothing continues a number, no exponent comes next. -/
theorem exponent?_eq_none_of_halts {rest : List Char} (h : Halts isNumeralChar rest) :
    exponent? rest = none := by
  match rest, h with
  | [], _ => rfl
  | c :: rest, h =>
    refine if_neg fun hc => ?_
    rw [Bool.or_eq_true, beq_iff_eq, beq_iff_eq] at hc
    rcases hc with rfl | rfl <;> exact absurd h (by simp [Halts, isNumeralChar])

/-- Where nothing continues a number, no decimal places come next. -/
theorem places?_eq_none_of_halts {rest : List Char} (h : Halts isNumeralChar rest) :
    places? rest = none := by
  unfold places?
  split
  · exact absurd h (by simp [Halts, isNumeralChar])
  · rfl

/-- Where nothing continues a number, no denominator comes next. -/
theorem denominator?_eq_none_of_halts {rest : List Char} (h : Halts isNumeralChar rest) :
    denominator? rest = none := by
  unfold denominator?
  split
  · exact absurd h (by simp [Halts, isNumeralChar])
  · rfl

/-- Decimal places are read again, with their exponent or without. -/
theorem rereads_places? : Rereads places? isNumeralChar := by
  intro cs s h rest hrest
  have hdigit : Halts Char.isDigit rest := hrest.mono fun c hc => by simp [isNumeralChar, hc]
  unfold places? at h
  split at h
  · obtain ⟨d, hd, rfl⟩ := Option.map_eq_some_iff.1 h
    rcases he : exponent? d.2 with _ | e
    -- without an exponent, none may come next now
    · show places? ('.' :: (d.1 ++ rest)) = some ('.' :: d.1, rest)
      rw [places?, rereads_digits? hd hdigit, Option.map_some,
        exponent?_eq_none_of_halts hrest]
    · show places? ('.' :: ((d.1 ++ e.1) ++ rest)) = some ('.' :: (d.1 ++ e.1), rest)
      rw [places?, List.append_assoc, rereads_digits? hd (halts_of_exponent? he rest),
        Option.map_some, rereads_exponent? he hdigit]
      rfl
  · cases h

/-- A denominator is read again. -/
theorem rereads_denominator? : Rereads denominator? Char.isDigit := by
  intro cs s h rest hrest
  unfold denominator? at h
  split at h
  · obtain ⟨s', h', rfl⟩ := Option.map_eq_some_iff.1 h
    rw [List.cons_append, denominator?, rereads_positive? h' hrest]
    rfl
  · cases h

/-- What may follow the whole part of a number: an exponent, decimal places or a
denominator, told apart by the first character. -/
def fraction? (cs : List Char) : Option Split :=
  ((exponent? cs).or (places? cs)).or (denominator? cs)

/-- What follows the whole part of a number is read again. -/
theorem rereads_fraction? : Rereads fraction? isNumeralChar := by
  intro cs s h rest hrest
  have hdigit : Halts Char.isDigit rest := hrest.mono fun c hc => by simp [isNumeralChar, hc]
  simp only [fraction?, Option.or_eq_some_iff] at h
  rcases h with (h | ⟨-, h⟩) | ⟨-, h⟩
  · rw [fraction?, rereads_exponent? h hdigit]
    rfl
  · -- decimal places begin with a point, and no exponent does
    have hnone : exponent? (s.1 ++ rest) = none := by
      unfold places? at h
      split at h
      · obtain ⟨d, -, rfl⟩ := Option.map_eq_some_iff.1 h
        split <;> rfl
      · cases h
    rw [fraction?, hnone, rereads_places? h hrest]
    rfl
  -- a denominator begins with a stroke
  · have hnone : exponent? (s.1 ++ rest) = none ∧ places? (s.1 ++ rest) = none := by
      unfold denominator? at h
      split at h
      · obtain ⟨d, -, rfl⟩ := Option.map_eq_some_iff.1 h
        exact ⟨rfl, rfl⟩
      · cases h
    rw [fraction?, hnone.1, hnone.2, rereads_denominator? h hdigit]
    rfl

/-- A fraction begins with a letter or a mark of its own. -/
theorem halts_of_fraction? {cs : List Char} {s : Split} (h : fraction? cs = some s)
    (rest : List Char) : Halts Char.isDigit (s.1 ++ rest) := by
  simp only [fraction?, Option.or_eq_some_iff] at h
  rcases h with (h | ⟨-, h⟩) | ⟨-, h⟩
  · exact halts_of_exponent? h rest
  · unfold places? at h
    split at h
    · obtain ⟨d, -, rfl⟩ := Option.map_eq_some_iff.1 h
      split <;> rfl
    · cases h
  · unfold denominator? at h
    split at h
    · obtain ⟨d, -, rfl⟩ := Option.map_eq_some_iff.1 h
      rfl
    · cases h

/-- Where nothing continues a number, it is a whole number. -/
theorem fraction?_eq_none_of_halts {rest : List Char} (h : Halts isNumeralChar rest) :
    fraction? rest = none := by
  rw [fraction?, exponent?_eq_none_of_halts h, places?_eq_none_of_halts h,
    denominator?_eq_none_of_halts h]
  rfl

/-- A number is its whole part and what follows this. -/
theorem number?_eq (cs : List Char) :
    number? cs = (signed? natural? cs).map fun i =>
      match fraction? i.2 with
      | some s => (.number (String.ofList (i.1 ++ s.1)), s.2)
      | none => (.integer (String.ofList i.1), i.2) := rfl

/-- **A number is read back** unless what follows goes on with it. -/
theorem number?_append {cs : List Char} {t : Token × List Char} (h : number? cs = some t)
    {rest : List Char} (hrest : Halts isNumeralChar rest) :
    number? (t.1.text.toList ++ rest) = some (t.1, rest) := by
  have hwhole : Rereads (signed? natural?) Char.isDigit :=
    Rereads.signed? rereads_natural? isSplit_of_natural?
  rw [number?_eq] at h
  obtain ⟨i, hi, rfl⟩ := Option.map_eq_some_iff.1 h
  rcases hs : fraction? i.2 with _ | s
  · -- a whole number: what follows must not turn it into a fraction
    have hdigit : Halts Char.isDigit rest := hrest.mono fun c hc => by simp [isNumeralChar, hc]
    show number? ((String.ofList i.1).toList ++ rest) = some (.integer (String.ofList i.1), rest)
    rw [String.toList_ofList, number?_eq, hwhole hi hdigit, Option.map_some,
      fraction?_eq_none_of_halts hrest]
  · show number? ((String.ofList (i.1 ++ s.1)).toList ++ rest) =
      some (.number (String.ofList (i.1 ++ s.1)), rest)
    rw [String.toList_ofList, List.append_assoc, number?_eq,
      hwhole hi (halts_of_fraction? hs rest), Option.map_some, rereads_fraction? hs hrest]

/-! ## Tokens -/

namespace Token

/-- The word is a mark, and not a name or a number. -/
def isMark : Token → Bool
  | mark _ => true
  | _ => false

/-- The reader of marks reads nothing else. -/
theorem isMark_of_mark? {cs : List Char} {t : Token × List Char} (h : mark? cs = some t) :
    t.1.isMark = true := by
  obtain ⟨m, -, h⟩ := List.exists_of_findSome?_eq_some h
  split at h
  · obtain rfl := Option.some.inj h
    rfl
  · cases h

/-- Where no quote and no dollar sign comes first, the first character decides what kind
of word it is. -/
theorem scan?_cons {c : Char} (hquote : c ≠ '\'') (hobject : c ≠ '"') (hdollar : c ≠ '$')
    (cs : List Char) :
    scan? (c :: cs) =
      if c.isLower then some (.lower (String.ofList (word c cs).1), (word c cs).2)
      else if c.isUpper then some (.upper (String.ofList (word c cs).1), (word c cs).2)
      else if c.isDigit || c == '+' || c == '-' then number? (c :: cs)
      else mark? (c :: cs) := by
  unfold scan?
  split
  · simp_all
  · simp_all
  · simp_all
  · simp_all
  · simp_all
  · next c' cs' _ _ _ _ heq =>
    obtain ⟨rfl, rfl⟩ := List.cons.inj heq
    rfl

theorem ne_of_kind {kind : Char → Bool} {c d : Char} (hc : kind c = true) (hd : kind d = false) :
    c ≠ d := by
  rintro rfl
  rw [hc] at hd
  cases hd

/-- A small letter begins a word of its own kind. -/
theorem scan?_cons_lower {c : Char} (hc : c.isLower = true) (cs : List Char) :
    scan? (c :: cs) = some (.lower (String.ofList (word c cs).1), (word c cs).2) := by
  rw [scan?_cons (ne_of_kind hc rfl) (ne_of_kind hc rfl) (ne_of_kind hc rfl), if_pos hc]

/-- A small letter and the word characters behind it are one word. -/
theorem scan?_lower {c : Char} {w rest : List Char} (hc : c.isLower = true)
    (hw : ∀ d ∈ w, isWordChar d = true) (hrest : Halts isWordChar rest) :
    scan? (c :: (w ++ rest)) = some (.lower (String.ofList (c :: w)), rest) := by
  rw [scan?_cons_lower hc, word_append hw hrest]

/-- A capital letter begins a word of its own kind. -/
theorem scan?_cons_upper {c : Char} (hc : c.isUpper = true) (cs : List Char) :
    scan? (c :: cs) = some (.upper (String.ofList (word c cs).1), (word c cs).2) := by
  have hlower : ¬c.isLower = true := by
    rw [isUpper_iff] at hc
    rw [isLower_iff]
    rintro ⟨hle, -⟩
    exact absurd (UInt32.le_trans hle hc.2) (by decide)
  rw [scan?_cons (ne_of_kind hc rfl) (ne_of_kind hc rfl) (ne_of_kind hc rfl), if_neg hlower,
    if_pos hc]

/-- A capital letter and the word characters behind it are one word. -/
theorem scan?_upper {c : Char} {w rest : List Char} (hc : c.isUpper = true)
    (hw : ∀ d ∈ w, isWordChar d = true) (hrest : Halts isWordChar rest) :
    scan? (c :: (w ++ rest)) = some (.upper (String.ofList (c :: w)), rest) := by
  rw [scan?_cons_upper hc, word_append hw hrest]

/-- A digit or a sign begins a number. -/
theorem scan?_number {c : Char} (hlower : ¬c.isLower = true) (hupper : ¬c.isUpper = true)
    (hc : (c.isDigit || c == '+' || c == '-') = true) (cs : List Char) :
    scan? (c :: cs) = number? (c :: cs) := by
  have hne : ∀ d : Char, (d.isDigit || d == '+' || d == '-') = false → c ≠ d :=
    fun d hd => @ne_of_kind (fun c => c.isDigit || c == '+' || c == '-') c d hc hd
  rw [scan?_cons (hne _ rfl) (hne _ rfl) (hne _ rfl), if_neg hlower, if_neg hupper, if_pos hc]

/-- How a word is taken off a text, by what comes first in it. -/
inductive Scanned : List Char → Token → List Char → Prop where
  | quoted {cs : List Char} {s : Split} (name : quotedRest? '\'' cs = some s) :
    Scanned ('\'' :: cs) (.quoted (String.ofList ('\'' :: s.1))) s.2
  | object {cs : List Char} {s : Split} (name : quotedRest? '"' cs = some s) :
    Scanned ('"' :: cs) (.object (String.ofList ('"' :: s.1))) s.2
  | system {cs : List Char} {s : Split} (name : lowerWord? cs = some s) :
    Scanned ('$' :: '$' :: cs) (.system (String.ofList ('$' :: '$' :: s.1))) s.2
  | defined {cs : List Char} {s : Split} (single : ∀ tail, cs ≠ '$' :: tail)
    (name : lowerWord? cs = some s) :
    Scanned ('$' :: cs) (.defined (String.ofList ('$' :: s.1))) s.2
  | lower {c : Char} {cs : List Char} (first : c.isLower = true) :
    Scanned (c :: cs) (.lower (String.ofList (word c cs).1)) (word c cs).2
  | upper {c : Char} {cs : List Char} (first : c.isUpper = true) :
    Scanned (c :: cs) (.upper (String.ofList (word c cs).1)) (word c cs).2
  | number {c : Char} {cs rest : List Char} {t : Token} (not_lower : ¬c.isLower = true)
    (not_upper : ¬c.isUpper = true) (first : (c.isDigit || c == '+' || c == '-') = true)
    (read : number? (c :: cs) = some (t, rest)) : Scanned (c :: cs) t rest
  | mark {cs rest : List Char} {t : Token} (read : mark? cs = some (t, rest)) :
    Scanned cs t rest

/-- Every word is taken off in one of these ways. -/
theorem scanned_of_scan? {cs rest : List Char} {t : Token} (h : scan? cs = some (t, rest)) :
    Scanned cs t rest := by
  unfold scan? at h
  split at h
  · cases h
  · obtain ⟨s, hs, heq⟩ := Option.map_eq_some_iff.1 h
    obtain ⟨rfl, rfl⟩ := Prod.mk.inj heq
    exact .quoted hs
  · obtain ⟨s, hs, heq⟩ := Option.map_eq_some_iff.1 h
    obtain ⟨rfl, rfl⟩ := Prod.mk.inj heq
    exact .object hs
  · obtain ⟨s, hs, heq⟩ := Option.map_eq_some_iff.1 h
    obtain ⟨rfl, rfl⟩ := Prod.mk.inj heq
    exact .system hs
  · next hsingle =>
    obtain ⟨s, hs, heq⟩ := Option.map_eq_some_iff.1 h
    obtain ⟨rfl, rfl⟩ := Prod.mk.inj heq
    exact .defined hsingle hs
  · split at h
    · next hc =>
      obtain ⟨rfl, rfl⟩ := Prod.mk.inj (Option.some.inj h)
      exact .lower hc
    · next hlower =>
      split at h
      · next hc =>
        obtain ⟨rfl, rfl⟩ := Prod.mk.inj (Option.some.inj h)
        exact .upper hc
      · next hupper =>
        split at h
        · next hc => exact .number hlower hupper hc h
        · exact .mark h

/-- **A word is read back** wherever it is written, unless what follows goes on with
it. -/
theorem scan?_append {cs rest' : List Char} {t : Token} (h : scan? cs = some (t, rest'))
    (ht : t.isMark = false) {rest : List Char} (hrest : Stops rest) :
    scan? (t.text.toList ++ rest) = some (t, rest) := by
  have hword : Halts isWordChar rest := hrest.halts (by decide)
  have hnumeral : Halts isNumeralChar rest := hrest.halts (by decide)
  have htaken : ∀ {cs : List Char}, ∀ d ∈ cs.takeWhile isWordChar, isWordChar d = true :=
    fun d hd => List.all_eq_true.1 List.all_takeWhile d hd
  -- one case for each way to take a word off, by what comes first in it
  cases scanned_of_scan? h with
  | quoted name =>
    rw [text, String.toList_ofList, List.cons_append, scan?,
      quotedRest?_append (by decide) name]
    rfl
  | object name =>
    rw [text, String.toList_ofList, List.cons_append, scan?,
      quotedRest?_append (by decide) name]
    rfl
  | system name =>
    rw [text, String.toList_ofList, List.cons_append, List.cons_append, scan?,
      rereads_lowerWord? name hword]
    rfl
  | defined single name =>
    rw [text, String.toList_ofList, List.cons_append, scan?, rereads_lowerWord? name hword]
    · rfl
    · -- the word does not begin with another dollar sign, or it would be a system word
      intro tail htail
      obtain ⟨tail', hcs⟩ := (isSplit_of_lowerWord? name).exists_cons htail
      exact single tail' hcs
  | lower first =>
    rw [text, String.toList_ofList]
    exact scan?_lower first htaken hword
  | upper first =>
    rw [text, String.toList_ofList]
    exact scan?_upper first htaken hword
  | @number c cs _ _ not_lower not_upper first read =>
    have hnumber : number? (t.text.toList ++ rest) = some (t, rest) := number?_append read hnumeral
    -- the number begins as the text did, so it is read as one
    have hfront : c :: cs = t.text.toList ++ rest' := (fronts_of_number? read).1
    have hne : t.text.toList ≠ [] := (fronts_of_number? read).2
    obtain ⟨d, w, hdw⟩ := List.exists_cons_of_ne_nil hne
    rw [hdw] at hfront hnumber ⊢
    obtain rfl := (List.cons.inj hfront).1
    rw [List.cons_append] at hnumber ⊢
    rw [scan?_number not_lower not_upper first, hnumber]
  | mark read =>
    rw [isMark_of_mark? read] at ht
    cases ht

end Token

/-! ## Words are made of ASCII characters -/

/-- ASCII characters up to the last one that has an image. -/
def isAscii (c : Char) : Bool := c ≤ '~'

/-- Letters, digits and underscores are ASCII characters. -/
theorem isAscii_of_isWordChar {c : Char} (h : isWordChar c = true) : isAscii c = true := by
  rw [isWordChar_iff, isUpper_iff, isLower_iff, isDigit_iff] at h
  rw [isAscii, decide_eq_true_eq]
  rcases h with ⟨-, h⟩ | ⟨-, h⟩ | ⟨-, h⟩ | rfl
  · exact UInt32.le_trans h (by decide)
  · exact UInt32.le_trans h (by decide)
  · exact UInt32.le_trans h (by decide)
  · decide

theorem isAscii_of_isDigit {c : Char} (h : c.isDigit = true) : isAscii c = true :=
  isAscii_of_isWordChar (isWordChar_iff.2 (.inr (.inr (.inl h))))

/-- A reader takes ASCII characters only. -/
def TakesAscii (read : List Char → Option Split) : Prop :=
  ∀ {cs : List Char} {s : Split}, read cs = some s → ∀ c ∈ s.1, isAscii c = true

/-- A first character and a run of characters of a kind are ASCII if the kind is. -/
theorem isAscii_of_mem_takeWhile {kind : Char → Bool}
    (hkind : ∀ c, kind c = true → isAscii c = true) {c d : Char} {cs : List Char}
    (hc : isAscii c = true) (hd : d ∈ c :: cs.takeWhile kind) : isAscii d = true := by
  rcases List.mem_cons.1 hd with rfl | hd
  · exact hc
  · exact hkind d (List.all_eq_true.1 List.all_takeWhile d hd)

/-- A word that begins with an ASCII character has no others. -/
theorem isAscii_of_mem_word {c d : Char} {cs : List Char} (hc : isAscii c = true)
    (hd : d ∈ (word c cs).1) : isAscii d = true :=
  isAscii_of_mem_takeWhile (fun _ => isAscii_of_isWordChar) hc hd

theorem takesAscii_lowerWord? : TakesAscii lowerWord? := by
  intro cs s h
  unfold lowerWord? at h
  split at h
  · split at h
    · next hc =>
      obtain rfl := Option.some.inj h
      exact fun d => isAscii_of_mem_word (isAscii_of_isWordChar (isWordChar_iff.2 (.inr (.inl hc))))
    · cases h
  · cases h

/-- A quoted name holds printable characters only, escaped ones among them. -/
theorem takesAscii_quotedRest? {quote : Char} (hquote : isAscii quote = true) :
    TakesAscii (quotedRest? quote) := by
  intro cs s h
  fun_induction quotedRest? quote cs generalizing s with
  | case1 c cs hc ih =>
    obtain ⟨s', h', rfl⟩ := Option.map_eq_some_iff.1 h
    rw [Bool.or_eq_true, beq_iff_eq, beq_iff_eq] at hc
    have hc' : isAscii c = true := by
      rcases hc with rfl | rfl
      · rfl
      · exact hquote
    simpa [hc'] using ⟨by decide, ih h'⟩
  | case2 => cases h
  | case3 c cs hc hquote' =>
    obtain rfl := Option.some.inj h
    rw [beq_iff_eq] at hquote'
    simpa [hquote'] using hquote
  | case4 c cs hc hquote' hprintable ih =>
    obtain ⟨s', h', rfl⟩ := Option.map_eq_some_iff.1 h
    rw [Bool.and_eq_true, isPrintable, Bool.and_eq_true] at hprintable
    simpa using ⟨hprintable.1.2, ih h'⟩
  | case5 => cases h
  | case6 => cases h

theorem takesAscii_digits? : TakesAscii digits? := by
  intro cs s h
  unfold digits? at h
  split at h
  · split at h
    · next hc =>
      obtain rfl := Option.some.inj h
      exact fun d =>
        isAscii_of_mem_takeWhile (fun _ => isAscii_of_isDigit) (isAscii_of_isDigit hc)
    · cases h
  · cases h

theorem takesAscii_natural? : TakesAscii natural? := by
  intro cs s h
  unfold natural? at h
  split at h
  · obtain rfl := Option.some.inj h
    exact List.all_eq_true.1 (show ['0'].all isAscii = true from rfl)
  · exact takesAscii_digits? h

theorem TakesAscii.signed? {read : List Char → Option Split} (hread : TakesAscii read) :
    TakesAscii (signed? read) := by
  intro cs s h
  unfold Problem.signed? at h
  split at h
  · obtain ⟨s', h', rfl⟩ := Option.map_eq_some_iff.1 h
    simpa using ⟨by decide, hread h'⟩
  · obtain ⟨s', h', rfl⟩ := Option.map_eq_some_iff.1 h
    simpa using ⟨by decide, hread h'⟩
  · exact hread h

theorem takesAscii_exponent? : TakesAscii exponent? := by
  intro cs s h
  unfold exponent? at h
  split at h
  · split at h
    · next hc =>
      obtain ⟨s', h', rfl⟩ := Option.map_eq_some_iff.1 h
      rw [Bool.or_eq_true, beq_iff_eq, beq_iff_eq] at hc
      have hdigits := takesAscii_digits?.signed? h'
      rcases hc with rfl | rfl <;> simpa using ⟨by decide, hdigits⟩
    · cases h
  · cases h

/-- What follows the whole part of a number is ASCII. -/
theorem takesAscii_fraction? : TakesAscii fraction? := by
  intro cs s h
  simp only [fraction?, Option.or_eq_some_iff] at h
  -- an exponent, decimal places, or a denominator
  rcases h with (h | ⟨-, h⟩) | ⟨-, h⟩
  · exact takesAscii_exponent? h
  · unfold places? at h
    split at h
    · obtain ⟨d, hd, rfl⟩ := Option.map_eq_some_iff.1 h
      have hdigits := takesAscii_digits? hd
      split
      · next e he =>
        have hexponent := takesAscii_exponent? he
        intro c hc
        rw [List.cons_append, List.mem_cons, List.mem_append] at hc
        rcases hc with rfl | hc | hc
        · decide
        · exact hdigits c hc
        · exact hexponent c hc
      · simpa using ⟨by decide, hdigits⟩
    · cases h
  · unfold denominator? at h
    split at h
    · obtain ⟨d, hd, rfl⟩ := Option.map_eq_some_iff.1 h
      have hdigits : ∀ c ∈ d.1, isAscii c = true := by
        unfold positive? at hd
        split at hd
        · cases hd
        · exact takesAscii_digits? hd
      simpa using ⟨by decide, hdigits⟩
    · cases h

namespace Token

/-- The text of a number is ASCII. -/
theorem isAscii_of_number? {cs : List Char} {t : Token × List Char} (h : number? cs = some t) :
    ∀ c ∈ t.1.text.toList, isAscii c = true := by
  rw [number?_eq] at h
  obtain ⟨i, hi, rfl⟩ := Option.map_eq_some_iff.1 h
  have hwhole := takesAscii_natural?.signed? hi
  split
  · next s hs =>
    rw [text, String.toList_ofList]
    intro c hc
    rcases List.mem_append.1 hc with hc | hc
    · exact hwhole c hc
    · exact takesAscii_fraction? hs c hc
  · rw [text, String.toList_ofList]
    exact hwhole

/-- Every mark in the table is ASCII. -/
theorem isAscii_of_mark? {cs : List Char} {t : Token × List Char} (h : mark? cs = some t) :
    ∀ c ∈ t.1.text.toList, isAscii c = true := by
  have hmarks : marks.all (fun m => m.toList.all isAscii) = true := by decide
  obtain ⟨m, hm, h⟩ := List.exists_of_findSome?_eq_some h
  split at h
  · obtain rfl := Option.some.inj h
    exact List.all_eq_true.1 (List.all_eq_true.1 hmarks m hm)
  · cases h

/-- **A word is made of ASCII characters.** -/
theorem isAscii_of_scan? {cs rest : List Char} {t : Token} (h : scan? cs = some (t, rest)) :
    ∀ c ∈ t.text.toList, isAscii c = true := by
  -- one case for each way to take a word off
  cases scanned_of_scan? h with
  | quoted name =>
    have := takesAscii_quotedRest? (by decide) name
    simpa [text] using ⟨by decide, this⟩
  | object name =>
    have := takesAscii_quotedRest? (by decide) name
    simpa [text] using ⟨by decide, this⟩
  | system name =>
    have := takesAscii_lowerWord? name
    simpa [text] using ⟨by decide, this⟩
  | defined single name =>
    have := takesAscii_lowerWord? name
    simpa [text] using ⟨by decide, this⟩
  | lower first =>
    rw [text, String.toList_ofList]
    refine fun d => isAscii_of_mem_word (isAscii_of_isWordChar ?_)
    exact isWordChar_iff.2 (.inr (.inl first))
  | upper first =>
    rw [text, String.toList_ofList]
    refine fun d => isAscii_of_mem_word (isAscii_of_isWordChar ?_)
    exact isWordChar_iff.2 (.inl first)
  | number _ _ _ read => exact isAscii_of_number? read
  | mark read => exact isAscii_of_mark? read

end Token

end Clausal.Problem
