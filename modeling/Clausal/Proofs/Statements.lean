/-
Statements are read back word by word. A statement is read by taking words off its front
until the full stop, so a text that is put together from the texts of words, with blanks
where they are wanted, is read as those words. `Writes` says so of a piece of text in
front of anything that may follow it, and pieces are put together by `Writes.append`.

A word that has been read off some text is `Readable`: it is made of ASCII characters and
read again wherever it is written. A spelling stands for a word if it is the text of a
readable one, and then the word is found by reading the spelling (`Token.ofSpelling`).
-/
import Clausal.Problem.Document
import Clausal.Proofs.Words

set_option autoImplicit false

namespace Clausal.Problem

/-! ## Readable words and spellings -/

namespace Token

/-- The word is read back wherever it is written. -/
structure Readable (t : Token) : Prop where
  isMark_eq : t.isMark = false
  ascii : ∀ c ∈ t.text.toList, isAscii c = true
  scan?_eq : ∀ {rest : List Char}, Stops rest → scan? (t.text.toList ++ rest) = some (t, rest)

/-- A word that has been read off any text can be read back. -/
theorem readable_of_scan? {cs rest : List Char} {t : Token} (h : scan? cs = some (t, rest))
    (ht : t.isMark = false) : t.Readable :=
  ⟨ht, isAscii_of_scan? h, scan?_append h ht⟩

/-- The word that a spelling stands for. -/
def ofSpelling (s : String) : Token :=
  match scan? s.toList with
  | some (t, _) => t
  | none => default

/-- A word that can be read back is the word of its spelling. -/
theorem Readable.ofSpelling_eq {t : Token} (h : t.Readable) : ofSpelling t.text = t := by
  have hscan : scan? t.text.toList = some (t, []) := by
    have := @Readable.scan?_eq t h [] trivial
    rwa [List.append_nil] at this
  rw [ofSpelling, hscan]

/-- A name of a symbol, with or without quotes. -/
def isAtomic : Token → Bool
  | lower _ | quoted _ => true
  | _ => false

/-- A number or a distinct object. -/
def isConstant : Token → Bool
  | integer _ | number _ | object _ => true
  | _ => false

/-- A word with dollar signs before it. -/
def isReserved : Token → Bool
  | defined _ | system _ => true
  | _ => false

/-- A word that may name a formula. -/
def isLabel : Token → Bool
  | lower _ | quoted _ | integer _ => true
  | _ => false

end Token

/-- The spelling is that of a readable word of the kind. -/
def Spells (kind : Token → Bool) (s : String) : Prop :=
  ∃ t : Token, t.Readable ∧ kind t = true ∧ t.text = s

/-- The word of a spelling has this spelling, and is of the kind. -/
theorem Spells.ofSpelling {kind : Token → Bool} {s : String} (h : Spells kind s) :
    (Token.ofSpelling s).Readable ∧ kind (.ofSpelling s) = true ∧
      (Token.ofSpelling s).text = s := by
  obtain ⟨t, ht, hkind, rfl⟩ := h
  rw [ht.ofSpelling_eq]
  exact ⟨ht, hkind, rfl⟩

/-- A capital letter with word characters behind it. -/
def IsVariableName (s : String) : Prop :=
  ∃ c w, s = String.ofList (c :: w) ∧ c.isUpper = true ∧ ∀ d ∈ w, isWordChar d = true

/-- The variables that are read have names of variables. -/
theorem isVariableName_of_scan? {cs rest : List Char} {s : String}
    (h : Token.scan? cs = some (.upper s, rest)) : IsVariableName s := by
  cases Token.scanned_of_scan? h with
  | @upper c cs first =>
    exact ⟨c, cs.takeWhile isWordChar, rfl, first,
      fun d hd => List.all_eq_true.1 List.all_takeWhile d hd⟩
  | number _ _ _ read =>
    rw [number?_eq] at read
    obtain ⟨i, -, heq⟩ := Option.map_eq_some_iff.1 read
    split at heq <;> exact nomatch (Prod.mk.inj heq).1
  | mark read => exact nomatch Token.isMark_of_mark? read

/-- The name of a variable can be read back as one. -/
theorem IsVariableName.readable {s : String} (h : IsVariableName s) :
    (Token.upper s).Readable := by
  obtain ⟨c, w, rfl, hc, hw⟩ := h
  have hscan : Token.scan? (c :: (w ++ [])) = some (.upper (String.ofList (c :: w)), []) :=
    Token.scan?_upper hc hw trivial
  exact Token.readable_of_scan? hscan rfl

/-- A name goes on with any word characters. -/
theorem IsVariableName.append {s t : String} (h : IsVariableName s)
    (ht : ∀ d ∈ t.toList, isWordChar d = true) : IsVariableName (s ++ t) := by
  obtain ⟨c, w, rfl, hc, hw⟩ := h
  refine ⟨c, w ++ t.toList, ?_, hc, fun d hd => ?_⟩
  · rw [← List.cons_append, String.ofList_append, String.ofList_toList]
  · rcases List.mem_append.1 hd with hd | hd
    · exact hw d hd
    · exact ht d hd

/-- Numbers may be put behind a name. -/
theorem isWordChar_of_mem_toString {n : Nat} {d : Char} (h : d ∈ (toString n).toList) :
    isWordChar d = true := by
  have hdigit : d.isDigit = true := by
    rw [Nat.toString_eq_ofList_toDigits, String.toList_ofList] at h
    exact Nat.isDigit_of_mem_toDigits (by decide) (by decide) h
  exact isWordChar_iff.2 (.inr (.inr (.inl hdigit)))

/-! ## One word at a time -/

/-- A blank is a gap. -/
theorem skipGaps_blank (cs : List Char) : skipGaps (' ' :: cs) = skipGaps cs := by
  rw [skipGaps]
  rfl

/-- Where a word can be read there is no gap. -/
theorem skipGaps_of_scan? {cs : List Char} {t : Token × List Char}
    (h : Token.scan? cs = some t) : skipGaps cs = cs := by
  have hnone : afterGap? cs = none := by
    -- a gap begins with a percent sign, a slash or a blank, and no word does
    unfold afterGap?
    split
    · cases h
    · cases h
    · next c cs _ _ =>
      refine if_neg fun hblank => ?_
      simp only [isBlank, Bool.or_eq_true, beq_iff_eq] at hblank
      rcases hblank with ((rfl | rfl) | rfl) | rfl <;> cases h
    · rfl
  rw [skipGaps]
  split
  · next hsome =>
    rw [hnone] at hsome
    cases hsome
  · rfl

/-- Where gaps have been skipped there are none. -/
theorem skipGaps_skipGaps (cs : List Char) : skipGaps (skipGaps cs) = skipGaps cs := by
  fun_induction skipGaps cs with
  | case1 cs rest hrest ih => exact ih
  | case2 cs hnone =>
    rw [skipGaps]
    split
    · next hsome =>
      rw [hnone] at hsome
      cases hsome
    · rfl

/-- Gaps before a statement make no difference to it. -/
theorem statement?_skipGaps (cs : List Char) : statement? (skipGaps cs) = statement? cs := by
  rw [statement?, statement?, skipGaps_skipGaps]

/-- Leading gaps make no difference to the item that a text begins with. -/
theorem item?_skipGaps (cs : List Char) : item? (skipGaps cs) = item? cs := by
  rw [item?, item?, statement?_skipGaps]

/-- Puts words in front of those of a statement. -/
def prepend (ts : List Token) :
    Option (List Token × List Char) → Option (List Token × List Char) :=
  Option.map fun s => (ts ++ s.1, s.2)

theorem prepend_prepend (ts us : List Token) (s : Option (List Token × List Char)) :
    prepend ts (prepend us s) = prepend (ts ++ us) s := by
  rcases s with _ | s
  · rfl
  · simp only [prepend, Option.map_some, List.append_assoc]

/-- A word that is no full stop is followed by the rest of the statement. -/
theorem statement?_of_scan? {cs rest : List Char} {t : Token} (h : Token.scan? cs = some (t, rest))
    (ht : t ≠ .fullStop) : statement? cs = prepend [t] (statement? rest) := by
  rw [statement?]
  split
  · next hnone =>
    rw [skipGaps_of_scan? h, h] at hnone
    cases hnone
  · next t' rest' hsome =>
    rw [skipGaps_of_scan? h, h] at hsome
    obtain ⟨rfl, rfl⟩ := Prod.mk.inj (Option.some.inj hsome)
    rw [if_neg ht]
    rfl

theorem statement?_blank (cs : List Char) : statement? (' ' :: cs) = statement? cs := by
  rw [statement?, statement?, skipGaps_blank]

/-- A full stop ends a statement, and what follows is left. -/
theorem statement?_fullStop (cs : List Char) :
    statement? ('.' :: cs) = some ([.fullStop], cs) := by
  have h : Token.scan? ('.' :: cs) = some (.fullStop, cs) := rfl
  rw [statement?]
  split
  · next hnone =>
    rw [skipGaps_of_scan? h, h] at hnone
    cases hnone
  · next t rest hsome =>
    rw [skipGaps_of_scan? h, h] at hsome
    obtain ⟨rfl, rfl⟩ := Prod.mk.inj (Option.some.inj hsome)
    rfl

/-! ## Pieces of text -/

/-- A piece of text in ASCII that is read as the given words, whatever follows it that
passes the condition. -/
structure Writes (follow : List Char → Prop) (cs : List Char) (ts : List Token) : Prop where
  ascii : ∀ c ∈ cs, isAscii c = true
  statement?_eq : ∀ {rest : List Char}, follow rest →
    statement? (cs ++ rest) = prepend ts (statement? rest)

/-- Anything may follow. -/
def Anything (_ : List Char) : Prop := True

namespace Writes

variable {follow follow' : List Char → Prop} {cs ds : List Char} {ts us : List Token}

/-- Two pieces make one, if the second passes as what follows the first. -/
theorem append (h : Writes follow cs ts) (h' : Writes follow' ds us)
    (hfollow : ∀ rest, follow' rest → follow (ds ++ rest)) :
    Writes follow' (cs ++ ds) (ts ++ us) where
  ascii c hc := (List.mem_append.1 hc).elim (h.ascii c) (h'.ascii c)
  statement?_eq {rest} hrest := by
    rw [List.append_assoc, h.statement?_eq (hfollow rest hrest), h'.statement?_eq hrest,
      prepend_prepend]

/-- Behind a piece that anything may follow goes any other. -/
theorem append_of_anything (h : Writes Anything cs ts) (h' : Writes follow' ds us) :
    Writes follow' (cs ++ ds) (ts ++ us) :=
  h.append h' fun _ _ => trivial

/-- If less may follow, the words are still those. -/
theorem mono (h : Writes follow cs ts) (himp : ∀ rest, follow' rest → follow rest) :
    Writes follow' cs ts :=
  ⟨h.ascii, fun hrest => h.statement?_eq (himp _ hrest)⟩

theorem nil : Writes follow [] [] where
  ascii _ hc := absurd hc (by simp)
  statement?_eq {rest} _ := by
    rcases h : statement? rest with _ | s <;> simp [prepend, h]

theorem blank (h : Writes follow cs ts) : Writes follow (' ' :: cs) ts where
  ascii c hc := by
    rcases List.mem_cons.1 hc with rfl | hc
    · rfl
    · exact h.ascii c hc
  statement?_eq {rest} hrest := by
    rw [List.cons_append, statement?_blank]
    exact h.statement?_eq hrest

end Writes

/-- A word that can be read back is written by its text, with a stop behind it. -/
theorem Token.Readable.writes {t : Token} (h : t.Readable) : Writes Stops t.text.toList [t] where
  ascii := h.ascii
  statement?_eq hrest := by
    refine statement?_of_scan? (h.scan?_eq hrest) fun ht => ?_
    have := h.isMark_eq
    rw [ht] at this
    cases this

/-! ## Marks -/

/-- A mark that is read as itself whatever follows. -/
theorem writes_mark {c : Char} {m : String} (hascii : isAscii c = true) (hm : m ≠ ".")
    (hscan : ∀ rest, Token.scan? (c :: rest) = some (.mark m, rest)) :
    Writes Anything [c] [.mark m] where
  ascii d hd := by
    rw [List.mem_singleton.1 hd]
    exact hascii
  statement?_eq {rest} _ := statement?_of_scan? (hscan rest) fun h => hm (Token.mark.inj h)

theorem writes_open : Writes Anything ['('] [.mark "("] :=
  writes_mark rfl (by decide) fun _ => rfl

theorem writes_close : Writes Anything [')'] [.mark ")"] :=
  writes_mark rfl (by decide) fun _ => rfl

theorem writes_openList : Writes Anything ['['] [.mark "["] :=
  writes_mark rfl (by decide) fun _ => rfl

theorem writes_closeList : Writes Anything [']'] [.mark "]"] :=
  writes_mark rfl (by decide) fun _ => rfl

/-- A comma is written with a blank behind it. -/
theorem writes_comma : Writes Anything [',', ' '] [.mark ","] :=
  (writes_mark rfl (by decide) fun _ => rfl).append_of_anything (.blank .nil)

/-- A bar is written with blanks around it. -/
theorem writes_bar : Writes Anything [' ', '|', ' '] [.mark "|"] :=
  .blank ((writes_mark rfl (by decide) fun _ => rfl).append_of_anything (.blank .nil))

/-- The sign of equality begins a longer mark as well, but not before a blank. -/
theorem writes_equals : Writes Anything [' ', '=', ' '] [.mark "="] := by
  refine .blank ⟨List.all_eq_true.1 rfl, fun {rest} _ => ?_⟩
  have hscan : Token.scan? ('=' :: ' ' :: rest) = some (.mark "=", ' ' :: rest) := rfl
  rw [List.cons_append, List.cons_append, List.nil_append, statement?_of_scan? hscan (by decide)]
  exact congrArg _ (statement?_blank rest)

/-- Where a word that is no mark begins, no mark goes on. -/
theorem halts_of_scan? {cs rest : List Char} {t : Token} (h : Token.scan? cs = some (t, rest))
    (ht : t.isMark = false) : Halts (fun c => c == '&' || c == '|') cs := by
  match cs, h with
  | [], _ => trivial
  | c :: cs, h =>
    refine Bool.eq_false_iff.2 fun hc => ?_
    rw [Bool.or_eq_true, beq_iff_eq, beq_iff_eq] at hc
    -- either character is a mark by itself
    rcases hc with rfl | rfl <;>
      · obtain ⟨rfl, -⟩ := Prod.mk.inj (Option.some.inj h)
        cases ht

/-- The sign of negation, where it is not the beginning of a longer mark. -/
theorem writes_not : Writes (Halts fun c => c == '&' || c == '|') ['~'] [.mark "~"] := by
  refine ⟨List.all_eq_true.1 rfl, fun {rest} hrest => ?_⟩
  refine statement?_of_scan? ?_ (by decide)
  cases rest with
  | nil => rfl
  | cons c rest =>
    rw [Halts, Bool.or_eq_false_iff, beq_eq_false_iff_ne, beq_eq_false_iff_ne] at hrest
    show mark? ('~' :: c :: rest) = _
    simp [mark?, marks, Ne.symm hrest.1, Ne.symm hrest.2]

/-! ## Lists of pieces -/

/-- Pieces with a separator between any two, if the separator passes as what follows a
piece. -/
theorem writes_intercalate {α : Type} {f : α → List Char} {g : α → List Token} {m : Token}
    {separator : List Char} (hseparator : Writes Anything separator [m])
    (hstops : ∀ rest, Stops (separator ++ rest)) {as : List α} (hne : as ≠ [])
    (h : ∀ a ∈ as, Writes Stops (f a) (g a)) :
    Writes Stops (separator.intercalate (as.map f)) ([m].intercalate (as.map g)) := by
  induction as with
  | nil => exact absurd rfl hne
  | cons a as ih =>
    rcases as with _ | ⟨b, as⟩
    · simpa using h a List.mem_cons_self
    · have hrest := ih (by simp) fun b hb => h b (List.mem_cons_of_mem a hb)
      have hfirst := h a List.mem_cons_self
      simp only [List.map_cons, List.intercalate_cons_cons] at hrest ⊢
      refine (hfirst.append hseparator fun rest _ => hstops rest).append_of_anything ?_
      exact hrest

end Clausal.Problem
