/-
How far ahead a word is read. Whether a number goes on is decided by the characters behind
it, up to three of them, so a word can change when more text is put behind the end of a
text. But no reader looks past a closing parenthesis: no name and no number continues with
one, and no mark contains one but the parenthesis itself. So a word that has been read with
a closing parenthesis still to come stays what it is, whatever is put behind the text
(`Token.scan?_extend`). Quoted names are the only words that may hold a parenthesis, and
these end with their quote.

For the parts of numbers it is not enough that what has been read is read again. Also what
could not be read must not become readable, or a number would grow. So `Steady` speaks of
the whole outcome of a reader.
-/
import Clausal.Proofs.Words

set_option autoImplicit false

namespace Clausal.Problem

/-! ## Steady readers -/

/-- Puts a text behind what has been left. -/
def extend {α : Type} (b : List Char) (s : α × List Char) : α × List Char := (s.1, s.2 ++ b)

/-- A reader that does not look past a closing parenthesis, and does not take one. -/
structure Steady (read : List Char → Option Split) : Prop where
  append : ∀ {cs : List Char}, ')' ∈ cs → ∀ b, read (cs ++ b) = (read cs).map (extend b)
  leaves : ∀ {cs : List Char} {s : Split}, ')' ∈ cs → read cs = some s → ')' ∈ s.2

/-- A run of characters of a kind ends where one of another kind stands. -/
theorem dropWhile_append_of_mem (kind : Char → Bool) {c : Char} (hc : kind c = false)
    {cs : List Char} (h : c ∈ cs) (b : List Char) :
    (cs ++ b).takeWhile kind = cs.takeWhile kind ∧
      (cs ++ b).dropWhile kind = cs.dropWhile kind ++ b ∧ c ∈ cs.dropWhile kind := by
  induction cs with
  | nil => exact absurd h List.not_mem_nil
  | cons d cs ih =>
    rw [List.cons_append, List.takeWhile_cons, List.takeWhile_cons, List.dropWhile_cons,
      List.dropWhile_cons]
    by_cases hd : kind d = true
    -- the character sought is not the first one, which is of the kind
    · have hmem : c ∈ cs := by
        rcases List.mem_cons.1 h with rfl | h
        · rw [hd] at hc
          cases hc
        · exact h
      obtain ⟨htake, hdrop, hleft⟩ := ih hmem
      rw [if_pos hd, if_pos hd, if_pos hd, if_pos hd, htake, hdrop]
      exact ⟨rfl, rfl, hleft⟩
    · rw [if_neg hd, if_neg hd, if_neg hd, if_neg hd]
      exact ⟨rfl, rfl, h⟩

/-- A word ends before the parenthesis. -/
theorem word_extend {cs : List Char} (h : ')' ∈ cs) (c : Char) (b : List Char) :
    word c (cs ++ b) = extend b (word c cs) := by
  obtain ⟨htake, hdrop, -⟩ := dropWhile_append_of_mem isWordChar rfl h b
  rw [word, htake, hdrop]
  rfl

/-- Where the first character is not the parenthesis, the parenthesis comes later. -/
theorem mem_tail_of_ne {c : Char} {cs : List Char} (h : ')' ∈ c :: cs) (hc : c ≠ ')') :
    ')' ∈ cs :=
  (List.mem_cons.1 h).resolve_left hc.symm

/-- A reader that first looks at one character, which it may take, and goes on with a steady
reader in either case. -/
theorem Steady.of_first {read taken other : List Char → Option Split} (first : Char → Bool)
    (hclose : first ')' = false) (htaken : Steady taken) (hother : Steady other)
    (hread : ∀ c cs, read (c :: cs) =
      if first c = true then (taken cs).map fun s => (c :: s.1, s.2) else other (c :: cs)) :
    Steady read where
  append {cs} h b := by
    cases cs with
    | nil => cases h
    | cons c cs =>
      rw [List.cons_append, hread, hread]
      -- by the first character, which is no parenthesis if it is taken
      by_cases hc : first c = true
      · rw [if_pos hc, if_pos hc, htaken.append (mem_tail_of_ne h (Token.ne_of_kind hc hclose)),
          Option.map_map, Option.map_map]
        rfl
      · rw [if_neg hc, if_neg hc, ← List.cons_append, hother.append h]
  leaves {cs s} h hs := by
    cases cs with
    | nil => cases h
    | cons c cs =>
      rw [hread] at hs
      split at hs
      · next hc =>
        obtain ⟨s', hs', rfl⟩ := Option.map_eq_some_iff.1 hs
        have hmem := mem_tail_of_ne h (Token.ne_of_kind hc hclose)
        exact (htaken.leaves hmem hs' :)
      · exact hother.leaves h hs

/-- The reader that takes nothing and succeeds, and the one that always fails. -/
theorem steady_some_nil : Steady fun cs => some ([], cs) where
  append _ _ := rfl
  leaves h hs := by
    cases hs
    exact h

theorem steady_none : Steady fun _ => none where
  append _ _ := rfl
  leaves _ hs := nomatch hs

/-- The reader of a run, which may be empty. -/
theorem steady_run (kind : Char → Bool) (hclose : kind ')' = false) :
    Steady fun cs => some (cs.takeWhile kind, cs.dropWhile kind) where
  append {cs} h b := by
    obtain ⟨htake, hdrop, -⟩ := dropWhile_append_of_mem kind hclose h b
    rw [htake, hdrop]
    rfl
  leaves {cs s} h hs := by
    cases hs
    exact (dropWhile_append_of_mem kind hclose h []).2.2

/-- The reader of the words behind dollar signs is steady. -/
theorem steady_lowerWord? : Steady lowerWord? :=
  .of_first Char.isLower rfl (steady_run isWordChar rfl) steady_none fun _ _ => rfl

/-! ## Parts of numbers -/

/-- The reader of digits is steady. -/
theorem steady_digits? : Steady digits? :=
  .of_first Char.isDigit rfl (steady_run Char.isDigit rfl) steady_none fun _ _ => rfl

/-- The reader of whole numbers without a sign is steady. -/
theorem steady_natural? : Steady natural? := by
  refine .of_first (fun c => c == '0') rfl steady_some_nil steady_digits? fun c cs => ?_
  by_cases hc : c = '0'
  · rw [hc]
    rfl
  · rw [if_neg (by simpa using hc), natural?]
    rintro tail heq
    exact hc (List.cons.inj heq).1

theorem steady_positive? : Steady positive? := by
  refine .of_first (fun c => c == '0') rfl steady_none steady_digits? fun c cs => ?_
  by_cases hc : c = '0'
  · rw [hc]
    rfl
  · rw [if_neg (by simpa using hc), positive?]
    rintro tail heq
    exact hc (List.cons.inj heq).1

/-- A steady reader is steady behind a sign. -/
theorem Steady.signed? {read : List Char → Option Split} (hread : Steady read) :
    Steady (signed? read) := by
  refine .of_first (fun c => c == '+' || c == '-') rfl hread hread fun c cs => ?_
  by_cases hplus : c = '+'
  · rw [hplus]
    rfl
  · by_cases hminus : c = '-'
    · rw [hminus]
      rfl
    · rw [if_neg (by simp [hplus, hminus]), Problem.signed?]
      · rintro tail heq
        exact hplus (List.cons.inj heq).1
      · rintro tail heq
        exact hminus (List.cons.inj heq).1

/-- The reader of exponents is steady. -/
theorem steady_exponent? : Steady exponent? :=
  .of_first (fun c => c == 'e' || c == 'E') rfl steady_digits?.signed? steady_none
    fun _ _ => rfl

/-- Digits, and perhaps an exponent. -/
theorem steady_decimals : Steady fun cs => (digits? cs).map fun d =>
    match exponent? d.2 with
    | some e => (d.1 ++ e.1, e.2)
    | none => (d.1, d.2) where
  append {cs} h b := by
    rw [steady_digits?.append h]
    rcases hd : digits? cs with _ | d
    · rfl
    -- the parenthesis is still to come behind the digits
    · have hexponent := steady_exponent?.append (steady_digits?.leaves h hd) b
      rw [Option.map_some, Option.map_some, Option.map_some]
      show some (match exponent? (d.2 ++ b) with | some e => _ | none => _) = _
      rw [hexponent]
      rcases exponent? d.2 with _ | e <;> rfl
  leaves {cs s} h hs := by
    obtain ⟨d, hd, rfl⟩ := Option.map_eq_some_iff.1 hs
    have hmem := steady_digits?.leaves h hd
    split
    · next e he => exact (steady_exponent?.leaves hmem he :)
    · exact hmem

/-- The reader of decimal places is steady. -/
theorem steady_places? : Steady places? := by
  refine .of_first (fun c => c == '.') rfl steady_decimals steady_none fun c cs => ?_
  by_cases hc : c = '.'
  · rw [hc, if_pos (by rfl), Option.map_map, places?]
    congr 1
    funext d
    show (match exponent? d.2 with | some e => _ | none => _) = _
    rw [Function.comp_apply]
    rcases exponent? d.2 with _ | e <;> rfl
  · rw [if_neg (by simpa using hc)]
    unfold places?
    split
    · next heq => exact absurd (List.cons.inj heq).1 hc
    · rfl

theorem steady_denominator? : Steady denominator? := by
  refine .of_first (fun c => c == '/') rfl steady_positive? steady_none fun c cs => ?_
  by_cases hc : c = '/'
  · rw [hc]
    rfl
  · rw [if_neg (by simpa using hc)]
    unfold denominator?
    split
    · next heq => exact absurd (List.cons.inj heq).1 hc
    · rfl

/-- Where one steady reader gives up, another may go on. -/
theorem Steady.or {read other : List Char → Option Split} (hread : Steady read)
    (hother : Steady other) : Steady fun cs => (read cs).or (other cs) where
  append {cs} h b := by
    rw [hread.append h, hother.append h]
    rcases read cs with _ | s <;> rfl
  leaves {cs s} h hs := by
    rcases Option.or_eq_some_iff.1 hs with hs | ⟨-, hs⟩
    · exact hread.leaves h hs
    · exact hother.leaves h hs

/-- The reader of what follows the whole part of a number is steady. -/
theorem steady_fraction? : Steady fraction? :=
  (steady_exponent?.or steady_places?).or steady_denominator?

/-- A number ends before the parenthesis, and where there is none, there is none in the longer
text either. -/
theorem number?_extend {cs : List Char} (h : ')' ∈ cs) (b : List Char) :
    number? (cs ++ b) = (number? cs).map (extend b) := by
  have hwhole := steady_natural?.signed?
  rw [number?_eq, number?_eq, hwhole.append h]
  rcases hi : signed? natural? cs with _ | i
  · rfl
  · have hfraction := steady_fraction?.append (hwhole.leaves h hi) b
    rw [Option.map_some, Option.map_some, Option.map_some]
    show some (match fraction? (i.2 ++ b) with | some s => _ | none => _) = _
    rw [hfraction]
    rcases fraction? i.2 with _ | s <;> rfl

/-! ## Quoted names and marks -/

/-- A quoted name ends with its quote. -/
theorem quotedRest?_extend {quote : Char} (hquote : quote ≠ '\\') {cs : List Char} {s : Split}
    (h : quotedRest? quote cs = some s) (b : List Char) :
    quotedRest? quote (cs ++ b) = some (extend b s) := by
  fun_induction quotedRest? quote cs generalizing s with
  | case1 c cs hc ih =>
    obtain ⟨s', h', rfl⟩ := Option.map_eq_some_iff.1 h
    rw [List.cons_append, List.cons_append, quotedRest?, if_pos hc, ih h']
    rfl
  | case2 => cases h
  | case3 c cs _ hc =>
    obtain rfl := Option.some.inj h
    -- the quote is no escape, so it ends the name here as well
    rw [List.cons_append, quotedRest?.eq_2, if_pos hc]
    · rfl
    · intro d ds hd
      rw [beq_iff_eq] at hc
      exact absurd (hc.symm.trans hd) hquote
  | case4 c cs _ hc hprintable ih =>
    obtain ⟨s', h', rfl⟩ := Option.map_eq_some_iff.1 h
    have hne : c ≠ '\\' := by
      rw [Bool.and_eq_true, bne_iff_ne] at hprintable
      exact hprintable.2
    rw [List.cons_append, quotedRest?.eq_2, if_neg hc, if_pos hprintable, ih h']
    · rfl
    · intro d ds hd
      exact absurd hd hne
  | case5 => cases h
  | case6 => cases h

/-- No mark contains a closing parenthesis but that mark itself. -/
theorem close_not_mem_mark : ∀ m ∈ marks, m ≠ ")" → ')' ∉ m.toList := by decide

/-- Functions that agree on a list find the same in it. -/
theorem findSome?_congr {α β : Type} {f g : α → Option β} {l : List α}
    (h : ∀ a ∈ l, f a = g a) : l.findSome? f = l.findSome? g := by
  induction l with
  | nil => rfl
  | cons a l ih =>
    rw [List.forall_mem_cons] at h
    rw [List.findSome?_cons, List.findSome?_cons, h.1, ih h.2]

/-- Only what stands before a closing parenthesis decides which mark comes first. -/
theorem mark?_extend {c : Char} (hc : c ≠ ')') {cs : List Char} (h : ')' ∈ cs) (b : List Char) :
    mark? (c :: cs ++ b) = (mark? (c :: cs)).map (extend b) := by
  have hmem : ')' ∈ c :: cs := List.mem_cons_of_mem c h
  have hstarts : ∀ m ∈ marks, m.toList <+: c :: cs ++ b ↔ m.toList <+: c :: cs := by
    intro m hm
    refine ⟨fun hfront => ?_, fun hfront => hfront.trans (List.prefix_append _ b)⟩
    by_cases hclose : m = ")"
    · rw [hclose] at hfront
      exact absurd (List.cons_prefix_cons.1 hfront).1.symm hc
    · -- the mark is too short to hold the whole text, or the parenthesis would be in it
      rcases List.prefix_or_prefix_of_prefix hfront (List.prefix_append (c :: cs) b) with h' | h'
      · exact h'
      · exact absurd (h'.subset hmem) (close_not_mem_mark m hm hclose)
  rw [mark?, mark?, List.map_findSome?]
  refine findSome?_congr fun m hm => ?_
  rw [Function.comp_apply]
  by_cases hfront : m.toList <+: c :: cs
  · rw [if_pos (List.isPrefixOf_iff_prefix.2 ((hstarts m hm).2 hfront)),
      if_pos (List.isPrefixOf_iff_prefix.2 hfront),
      List.drop_append_of_le_length hfront.length_le]
    rfl
  · have hfront' : ¬m.toList <+: c :: cs ++ b := fun h' => hfront ((hstarts m hm).1 h')
    rw [← List.isPrefixOf_iff_prefix] at hfront hfront'
    rw [if_neg hfront', if_neg hfront]
    rfl

/-- Every mark begins with a character that begins no other kind of word. -/
theorem scan?_of_mark? {c : Char} {cs : List Char} {t : Token × List Char}
    (h : mark? (c :: cs) = some t) (ds : List Char) :
    Token.scan? (c :: ds) = mark? (c :: ds) := by
  obtain ⟨m, hm, hfront⟩ := List.exists_of_findSome?_eq_some h
  have hfirst : m.toList.head? = some c := by
    split at hfront
    · next hstarts =>
      obtain ⟨rest, hrest⟩ := List.isPrefixOf_iff_prefix.1 hstarts
      have hne : ∀ m ∈ marks, m.toList ≠ [] := by decide
      obtain ⟨d, w, hw⟩ := List.exists_cons_of_ne_nil (hne m hm)
      rw [hw] at hrest ⊢
      rw [(List.cons.inj hrest).1]
      rfl
    · cases hfront
  -- no mark begins as a word of another kind does, by a look at the table
  have hkind : ∀ m ∈ marks, m.toList.head?.all (fun d => d != '\'' && d != '"' && d != '$' &&
      !d.isLower && !d.isUpper && !(d.isDigit || d == '+' || d == '-')) = true := by
    decide
  have hc := hkind m hm
  rw [hfirst] at hc
  simp only [Option.all_some, Bool.and_eq_true, bne_iff_ne, Bool.not_eq_eq_eq_not,
    Bool.not_true, ← Bool.not_eq_true] at hc
  obtain ⟨⟨⟨⟨⟨hquote, hobject⟩, hdollar⟩, hlower⟩, hupper⟩, hnumber⟩ := hc
  rw [Token.scan?_cons hquote hobject hdollar, if_neg hlower, if_neg hupper, if_neg hnumber]

/-! ## Words -/

namespace Token

/-- **A word is read again before more text**, if a closing parenthesis is still to come. -/
theorem scan?_extend {cs rest : List Char} {t : Token} (h : scan? cs = some (t, rest))
    (hrest : ')' ∈ rest) (b : List Char) : scan? (cs ++ b) = some (t, rest ++ b) := by
  have hfronts : cs = t.text.toList ++ rest := (scan?_eq_some h).1
  have hmem : ')' ∈ cs := hfronts ▸ List.mem_append_right _ hrest
  cases scanned_of_scan? h with
  | quoted name =>
    rw [List.cons_append, scan?, quotedRest?_extend (by decide) name]
    rfl
  | object name =>
    rw [List.cons_append, scan?, quotedRest?_extend (by decide) name]
    rfl
  | system name =>
    have hmem := mem_tail_of_ne (mem_tail_of_ne hmem (by decide)) (by decide)
    rw [List.cons_append, List.cons_append, scan?, steady_lowerWord?.append hmem, name]
    rfl
  | @defined cs s single name =>
    have hmem := mem_tail_of_ne hmem (by decide)
    rw [List.cons_append, scan?, steady_lowerWord?.append hmem, name]
    · rfl
    · intro tail htail
      -- the second dollar would have to come from the text itself, which goes on
      cases cs with
      | nil => cases hmem
      | cons d cs => exact single cs (by rw [(List.cons.inj htail).1])
  | lower first =>
    have hmem := mem_tail_of_ne hmem (ne_of_kind first rfl)
    rw [List.cons_append, scan?_cons_lower first, word_extend hmem]
    rfl
  | upper first =>
    have hmem := mem_tail_of_ne hmem (ne_of_kind first rfl)
    rw [List.cons_append, scan?_cons_upper first, word_extend hmem]
    rfl
  | @number c cs _ _ not_lower not_upper first read =>
    rw [List.cons_append, scan?_number not_lower not_upper first, ← List.cons_append,
      number?_extend hmem, read]
    rfl
  | mark read =>
    cases cs with
    | nil => cases hmem
    | cons c cs =>
      by_cases hc : c = ')'
      · -- the parenthesis is a word by itself
        have hclose : ∀ ds, scan? (')' :: ds) = some (.mark ")", ds) := fun _ => rfl
        rw [hc, hclose] at h
        obtain ⟨rfl, rfl⟩ := Prod.mk.inj (Option.some.inj h)
        rw [hc, List.cons_append, hclose]
      · rw [List.cons_append, scan?_of_mark? read, ← List.cons_append,
          mark?_extend hc (mem_tail_of_ne hmem hc), read]
        rfl

end Token

end Clausal.Problem
