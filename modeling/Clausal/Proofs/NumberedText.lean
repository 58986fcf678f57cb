/-
Text by symbol number is unambiguous. Two propositions, two literals or two lists of literals
that are written alike are the same, and so are two errors with one message
(`numbered_unambiguous`). So whoever reads a message knows which values have failed.

Nothing marks the end of a number or of a term, and an equation is its two sides with a sign
between them. What makes the text clear nevertheless is what may stand behind each part. A
text is called self-delimiting here if it can be told from what follows it, given that this
begins in a certain way (`SelfDelimiting`). A numeral needs to be followed by something else
than a digit, a term also by something else than a parenthesis; the commas, parentheses and
blanks that do follow are of this kind. The proof goes up from numerals to clauses, with one
such lemma for each kind of value, and by induction on terms for nested argument lists.
-/
import Clausal.Clause
import Clausal.InferenceError
import Clausal.Proofs.Words

set_option autoImplicit false

namespace Clausal

open Problem

/-! ## Texts that can be told from what follows -/

section

variable {α : Type} {follows : List Char → Prop} {text : α → String}

/-- The text of the value is the text of no other, and it is clear where it ends, as long as
what stands behind it is of the kind `follows`. -/
def SelfDelimiting (follows : List Char → Prop) (text : α → String) (a : α) : Prop :=
  ∀ ⦃b : α⦄ ⦃rest rest' : List Char⦄, follows rest → follows rest' →
    (text a).toList ++ rest = (text b).toList ++ rest' → a = b ∧ rest = rest'

/-- If nothing at all may follow, values with one text are equal. -/
theorem injective_of_selfDelimiting (hnil : follows [])
    (h : ∀ a, SelfDelimiting follows text a) : Function.Injective text := fun a _ hab =>
  (h a hnil hnil (congrArg (·.toList ++ []) hab)).1

/-- The same for strings, where the rests are texts themselves. -/
theorem SelfDelimiting.append_inj {a b : α} {w w' : String} (h : SelfDelimiting follows text a)
    (hw : follows w.toList) (hw' : follows w'.toList) (heq : text a ++ w = text b ++ w') :
    a = b ∧ w = w' := by
  rw [← String.toList_inj, String.toList_append, String.toList_append] at heq
  obtain ⟨hab, hrest⟩ := h hw hw' heq
  exact ⟨hab, String.toList_inj.1 hrest⟩

/-- Of texts with separators between them, each can be told if the separator may follow it.
The last one is where no separator comes next. -/
theorem intercalate_append_inj {separator rest rest' : List Char} {as bs : List α}
    (has : ∀ a ∈ as, SelfDelimiting follows text a) (ha : as ≠ []) (hb : bs ≠ [])
    (hseparator : ∀ r, follows (separator ++ r))
    (hrest : follows rest) (hrest' : follows rest')
    (hend : ¬separator <+: rest) (hend' : ¬separator <+: rest')
    (h : separator.intercalate (as.map fun a => (text a).toList) ++ rest =
      separator.intercalate (bs.map fun b => (text b).toList) ++ rest') :
    as = bs ∧ rest = rest' := by
  induction as generalizing bs with
  | nil => exact absurd rfl ha
  | cons a as ih =>
    rw [List.forall_mem_cons] at has
    rcases bs with _ | ⟨b, bs⟩
    · exact absurd rfl hb
    -- a separator comes next just where another entry does, so the two lists end together
    rcases as with _ | ⟨a', as⟩ <;> rcases bs with _ | ⟨b', bs⟩ <;>
      simp only [List.map_cons, List.map_nil, List.intercalate_singleton,
        List.intercalate_cons_cons, List.append_assoc] at h
    · obtain ⟨rfl, rfl⟩ := has.1 hrest hrest' h
      exact ⟨rfl, rfl⟩
    · exact absurd ⟨_, (has.1 hrest (hseparator _) h).2.symm⟩ hend
    · exact absurd ⟨_, (has.1 (hseparator _) hrest' h).2⟩ hend'
    · obtain ⟨rfl, htail⟩ := has.1 (hseparator _) (hseparator _) h
      obtain ⟨htails, rfl⟩ := ih has.2 (List.cons_ne_nil _ _) (List.cons_ne_nil _ _)
        (List.append_cancel_left htail)
      exact ⟨congrArg _ htails, rfl⟩

end

/-! ## Numerals -/

/-- A number is written by its decimal digits. -/
theorem toList_toString (n : Nat) : (toString n).toList = Nat.toDigits 10 n := by
  rw [Nat.toString_eq_ofList_toDigits, String.toList_ofList]

/-- There is nothing but digits in a number. -/
theorem isDigit_of_mem_toString {n : Nat} {c : Char} (hc : c ∈ (toString n).toList) :
    c.isDigit = true := by
  rw [toList_toString] at hc
  exact Nat.isDigit_of_mem_toDigits (by decide) (by decide) hc

/-- A number can be told from what follows it, unless that begins with a digit. -/
theorem selfDelimiting_toString (n : Nat) :
    SelfDelimiting (Halts Char.isDigit) (toString : Nat → String) n := by
  intro m rest rest' hrest hrest' h
  -- the numeral is the run of digits in front
  obtain ⟨htake, hdrop⟩ := takeWhile_append_of_halts (fun _ => isDigit_of_mem_toString) hrest
  obtain ⟨htake', hdrop'⟩ := takeWhile_append_of_halts (fun _ => isDigit_of_mem_toString) hrest'
  rw [h] at htake hdrop
  have hdigits : Nat.toDigits 10 n = Nat.toDigits 10 m := by
    rw [← toList_toString, ← toList_toString, ← htake, htake']
  refine ⟨?_, hdrop.symm.trans hdrop'⟩
  rw [← Nat.ofDigitChars_ten_toDigits (n := n), hdigits, Nat.ofDigitChars_ten_toDigits]

/-- A number has a first digit, so no text that begins with another character begins with it. -/
theorem toString_append_ne {c : Char} (hc : c.isDigit = false) (n : Nat) (rest rest' : List Char) :
    (toString n).toList ++ rest ≠ c :: rest' := by
  intro h
  have hdigit : ∀ d ∈ (toString n).toList, d.isDigit = true := fun _ => isDigit_of_mem_toString
  rcases hn : (toString n).toList with _ | ⟨d, ds⟩
  · exact Nat.toDigits_ne_nil ((toList_toString n).symm.trans hn)
  · rw [hn] at h hdigit
    obtain rfl : d = c := (List.cons.inj h).1
    exact Bool.false_ne_true (hc.symm.trans (hdigit d List.mem_cons_self))

/-! ## Terms -/

/-- A character that would go on with a term: a digit, or the parenthesis before
arguments. -/
def continuesTerm (c : Char) : Bool := c.isDigit || c == '('

/-- What may stand behind a term. -/
def EndsTerm (rest : List Char) : Prop := Halts continuesTerm rest

/-- A number inside a term ends where the term does. -/
theorem EndsTerm.halts {rest : List Char} (h : EndsTerm rest) : Halts Char.isDigit rest :=
  Halts.mono h fun _ hc => Bool.or_eq_true_iff.2 (.inl hc)

/-- Arguments do not count as something behind the term. -/
theorem EndsTerm.ne_open {rest rest' : List Char} (h : EndsTerm rest) : rest ≠ '(' :: rest' := by
  rintro rfl
  exact Bool.noConfusion (show continuesTerm '(' = false from h)

/-- A blank ends a term. -/
theorem endsTerm_blank (rest : List Char) : EndsTerm (' ' :: rest) := rfl

/-- Arguments that there are stand in parentheses, with commas in between. -/
theorem toList_argumentText {w : String} {ws : List String} :
    (argumentText "," (w :: ws)).toList =
      '(' :: ([','].intercalate ((w :: ws).map String.toList) ++ [')']) := by
  simp [argumentText, String.toList_intercalate]

/-- The number of a symbol ends where its arguments begin, or at the end of the term if it has
none. -/
theorem halts_argumentText (ws : List String) {rest : List Char} (h : Halts Char.isDigit rest) :
    Halts Char.isDigit ((argumentText "," ws).toList ++ rest) := by
  rcases ws with _ | ⟨w, ws⟩
  · exact h
  · rw [toList_argumentText]
    exact rfl

/-- Argument lists can be told from what follows, if their terms can. -/
theorem argumentText_append_inj {ss ts : List Term} {rest rest' : List Char}
    (hss : ∀ s ∈ ss, SelfDelimiting EndsTerm Term.numbered s)
    (hrest : EndsTerm rest) (hrest' : EndsTerm rest')
    (h : (argumentText "," (ss.map Term.numbered)).toList ++ rest =
      (argumentText "," (ts.map Term.numbered)).toList ++ rest') : ss = ts ∧ rest = rest' := by
  rcases ss with _ | ⟨s, ss⟩ <;> rcases ts with _ | ⟨t, ts⟩
  · exact ⟨rfl, h⟩
  -- without arguments on one side, an opening parenthesis would stand behind the term
  · rw [List.map_cons, toList_argumentText] at h
    exact absurd h hrest.ne_open
  · rw [List.map_cons, toList_argumentText] at h
    exact absurd h.symm hrest'.ne_open
  · rw [List.map_cons, List.map_cons, toList_argumentText, toList_argumentText, ← List.map_cons,
      ← List.map_cons, List.map_map, List.map_map, List.cons_append, List.cons_append,
      List.append_assoc, List.append_assoc] at h
    have hcomma : ∀ r, EndsTerm ([','] ++ r) := fun _ => rfl
    have hinj : s :: ss = t :: ts ∧ ')' :: rest = ')' :: rest' :=
      intercalate_append_inj hss (List.cons_ne_nil s ss) (List.cons_ne_nil t ts) hcomma rfl rfl
        (by simp) (by simp) (List.cons.inj h).2
    exact ⟨hinj.1, (List.cons.inj hinj.2).2⟩

namespace Term

theorem toList_numbered_var (x : Nat) : (var x).numbered.toList = 'X' :: (toString x).toList := by
  simp [numbered]

theorem toList_numbered_app (f : Nat) (args : List Term) :
    (app f args).numbered.toList =
      'f' :: ((toString f).toList ++ (argumentText "," (args.map numbered)).toList) := by
  simp [numbered]

/-- The text of a term begins with the letter of a variable or of a function symbol. -/
theorem numbered_append_ne {c : Char} (hX : 'X' ≠ c) (hf : 'f' ≠ c) (t : Term)
    (rest rest' : List Char) : t.numbered.toList ++ rest ≠ c :: rest' := by
  cases t with
  | var x =>
    rw [toList_numbered_var]
    exact fun h => hX (List.cons.inj h).1
  | app f args =>
    rw [toList_numbered_app]
    exact fun h => hf (List.cons.inj h).1

/-- **Terms can be told from what follows them**, unless this begins with a digit or a
parenthesis. -/
theorem selfDelimiting_numbered (s : Term) : SelfDelimiting EndsTerm numbered s := by
  -- along the term; the hypothesis is for its arguments, each with the rest of the text behind
  induction s with
  | var x =>
    intro t rest rest' hrest hrest' h
    rw [toList_numbered_var] at h
    cases t with
    | var y =>
      rw [toList_numbered_var] at h
      obtain ⟨rfl, rfl⟩ := selfDelimiting_toString x hrest.halts hrest'.halts (List.cons.inj h).2
      exact ⟨rfl, rfl⟩
    | app g ts =>
      rw [toList_numbered_app] at h
      exact absurd (List.cons.inj h).1 (by decide)
  | app f ss ih =>
    intro t rest rest' hrest hrest' h
    rw [toList_numbered_app] at h
    cases t with
    | var y =>
      rw [toList_numbered_var] at h
      exact absurd (List.cons.inj h).1 (by decide)
    | app g ts =>
      rw [toList_numbered_app, List.cons_append, List.cons_append, List.append_assoc,
        List.append_assoc] at h
      -- first the number of the symbol, and then its arguments
      obtain ⟨rfl, hargs⟩ := selfDelimiting_toString f (halts_argumentText _ hrest.halts)
        (halts_argumentText _ hrest'.halts) (List.cons.inj h).2
      obtain ⟨rfl, rfl⟩ := argumentText_append_inj ih hrest hrest' hargs
      exact ⟨rfl, rfl⟩

end Term

/-! ## Atoms and propositions -/

namespace Atom

/-- An equation is written as its sides with a sign between them. -/
theorem toList_numbered_equation (s t : Term) : (equation s t).numbered.toList =
    s.numbered.toList ++ ' ' :: '=' :: ' ' :: t.numbered.toList := by
  simp [numbered]

/-- Any other atom is written as a term is, with another letter. -/
theorem toList_numbered_of_sides?_eq_none {a : Atom} (h : a.sides? = none) :
    a.numbered.toList =
      'p' :: ((toString a.pred).toList ++
        (argumentText "," (a.args.map Term.numbered)).toList) := by
  simp [numbered, h]

/-- An atom is an equation or has no sides. -/
theorem equation_or_sides?_eq_none (a : Atom) : (∃ s t, a = equation s t) ∨ a.sides? = none := by
  rcases h : a.sides? with _ | ⟨s, t⟩
  · exact .inr rfl
  · exact .inl ⟨s, t, sides?_eq_some_iff.1 h⟩

/-- The text of an atom begins with the letter of a variable, of a function symbol or of a
predicate. -/
theorem numbered_append_ne {c : Char} (hX : 'X' ≠ c) (hf : 'f' ≠ c) (hp : 'p' ≠ c) (a : Atom)
    (rest rest' : List Char) : a.numbered.toList ++ rest ≠ c :: rest' := by
  rcases a.equation_or_sides?_eq_none with ⟨s, t, rfl⟩ | ha
  · rw [toList_numbered_equation, List.append_assoc]
    exact s.numbered_append_ne hX hf _ _
  · rw [toList_numbered_of_sides?_eq_none ha]
    exact fun h => hp (List.cons.inj h).1

/-- Atoms can be told from what follows them. An equation begins as its left side does and any
other atom with the letter of a predicate, so the two are not mixed up. -/
theorem selfDelimiting_numbered (a : Atom) : SelfDelimiting EndsTerm numbered a := by
  intro b rest rest' hrest hrest' h
  rcases a.equation_or_sides?_eq_none with ⟨s, t, rfl⟩ | ha <;>
    rcases b.equation_or_sides?_eq_none with ⟨s', t', rfl⟩ | hb
  · simp only [toList_numbered_equation, List.append_assoc, List.cons_append] at h
    -- the blank before the sign ends the left side
    obtain ⟨rfl, hsign⟩ := s.selfDelimiting_numbered (endsTerm_blank _) (endsTerm_blank _) h
    -- behind the sign between the sides stands the right one
    have hright : t.numbered.toList ++ rest = t'.numbered.toList ++ rest' :=
      (List.append_right_inj [' ', '=', ' ']).1 hsign
    obtain ⟨rfl, rfl⟩ := t.selfDelimiting_numbered hrest hrest' hright
    exact ⟨rfl, rfl⟩
  · rw [toList_numbered_equation, toList_numbered_of_sides?_eq_none hb, List.append_assoc] at h
    exact absurd h (s.numbered_append_ne (by decide) (by decide) _ _)
  · rw [toList_numbered_equation, toList_numbered_of_sides?_eq_none ha, List.append_assoc] at h
    exact absurd h.symm (s'.numbered_append_ne (by decide) (by decide) _ _)
  · obtain ⟨p, ss⟩ := a
    obtain ⟨q, ts⟩ := b
    rw [toList_numbered_of_sides?_eq_none ha, toList_numbered_of_sides?_eq_none hb,
      List.cons_append, List.cons_append, List.append_assoc, List.append_assoc] at h
    obtain ⟨rfl, hargs⟩ := selfDelimiting_toString p (halts_argumentText _ hrest.halts)
      (halts_argumentText _ hrest'.halts) (List.cons.inj h).2
    obtain ⟨rfl, rfl⟩ :=
      argumentText_append_inj (fun s _ => s.selfDelimiting_numbered) hrest hrest' hargs
    exact ⟨rfl, rfl⟩

end Atom

namespace Proposition

/-- What may stand behind a proposition: behind a term there must be no sign of equality, or
it would be the left side of an equation. -/
def Ends (rest : List Char) : Prop := EndsTerm rest ∧ ¬[' ', '=', ' '] <+: rest

/-- A term is not taken for an atom. -/
theorem numbered_term_append_ne (t : Term) (a : Atom) {rest rest' : List Char} (h : Ends rest) :
    t.numbered.toList ++ rest ≠ a.numbered.toList ++ rest' := by
  intro heq
  rcases a.equation_or_sides?_eq_none with ⟨s, s', rfl⟩ | ha
  · simp only [Atom.toList_numbered_equation, List.append_assoc, List.cons_append] at heq
    exact h.2 ⟨_, (t.selfDelimiting_numbered h.1 (endsTerm_blank _) heq).2.symm⟩
  · rw [Atom.toList_numbered_of_sides?_eq_none ha] at heq
    exact t.numbered_append_ne (by decide) (by decide) _ _ heq

/-- Propositions can be told from what follows them, where a term asks for more than an atom. -/
theorem selfDelimiting_numbered (p : Proposition) : SelfDelimiting Ends numbered p := by
  intro q rest rest' hrest hrest' h
  rcases p with s | a <;> rcases q with t | b
  · obtain ⟨rfl, rfl⟩ := s.selfDelimiting_numbered hrest.1 hrest'.1 h
    exact ⟨rfl, rfl⟩
  · exact absurd h (numbered_term_append_ne s b hrest)
  · exact absurd h.symm (numbered_term_append_ne t a hrest')
  · obtain ⟨rfl, rfl⟩ := a.selfDelimiting_numbered hrest.1 hrest'.1 h
    exact ⟨rfl, rfl⟩

end Proposition

/-! ## Literals and clauses -/

namespace Literal

/-- A sign of negation stands in front of the atom, and nothing else. -/
theorem toList_numbered_of_negated (a : Atom) :
    (mk true a).numbered.toList = '~' :: a.numbered.toList := by
  simp [numbered]

/-- The text of a literal begins with the letter of its atom or with the sign of negation. -/
theorem numbered_append_ne {c : Char} (hX : 'X' ≠ c) (hf : 'f' ≠ c) (hp : 'p' ≠ c) (hnot : '~' ≠ c)
    (l : Literal) (rest rest' : List Char) : l.numbered.toList ++ rest ≠ c :: rest' := by
  obtain ⟨_ | _, a⟩ := l
  · exact a.numbered_append_ne hX hf hp rest rest'
  · rw [toList_numbered_of_negated]
    exact fun h => hnot (List.cons.inj h).1

/-- Literals can be told from what follows them. -/
theorem selfDelimiting_numbered (l : Literal) : SelfDelimiting EndsTerm numbered l := by
  intro m rest rest' hrest hrest' h
  obtain ⟨_ | _, a⟩ := l <;> obtain ⟨_ | _, b⟩ := m
  · obtain ⟨rfl, rfl⟩ := a.selfDelimiting_numbered hrest hrest' h
    exact ⟨rfl, rfl⟩
  · rw [toList_numbered_of_negated] at h
    exact absurd h (a.numbered_append_ne (by decide) (by decide) (by decide) _ _)
  · rw [toList_numbered_of_negated] at h
    exact absurd h.symm (b.numbered_append_ne (by decide) (by decide) (by decide) _ _)
  · rw [toList_numbered_of_negated, toList_numbered_of_negated] at h
    obtain ⟨rfl, rfl⟩ := a.selfDelimiting_numbered hrest hrest' (List.cons.inj h).2
    exact ⟨rfl, rfl⟩

end Literal

/-- A disjunction that is not empty is its literals with a bar between them. -/
theorem toList_disjunctionText (l : Literal) (ls : List Literal) :
    (disjunctionText ((l :: ls).map Literal.numbered)).toList =
      [' ', '|', ' '].intercalate ((l :: ls).map fun m => m.numbered.toList) := by
  simp [disjunctionText, String.toList_intercalate, Function.comp_def]

/-- A disjunction of literals is not taken for the empty one. -/
theorem disjunctionText_ne (l : Literal) (ls : List Literal) :
    disjunctionText ((l :: ls).map Literal.numbered) ≠ disjunctionText [] := by
  intro h
  have hfirst : ∀ rest rest' : List Char, l.numbered.toList ++ rest ≠ '$' :: rest' :=
    l.numbered_append_ne (by decide) (by decide) (by decide) (by decide)
  have htext := (toList_disjunctionText l ls).symm.trans (congrArg String.toList h)
  rcases ls with _ | ⟨m, ls⟩
  · exact hfirst [] _ (by simpa [disjunctionText] using htext)
  · rw [List.map_cons, List.map_cons, List.intercalate_cons_cons, List.append_assoc] at htext
    exact hfirst _ _ htext

/-- The text of a disjunction determines its literals and their order. -/
theorem disjunctionText_injective :
    Function.Injective fun ls : List Literal => disjunctionText (ls.map Literal.numbered) := by
  intro ls ms h
  rcases ls with _ | ⟨l, ls⟩ <;> rcases ms with _ | ⟨m, ms⟩
  · rfl
  · exact absurd h.symm (disjunctionText_ne m ms)
  · exact absurd h (disjunctionText_ne l ls)
  -- no bar stands behind the last literal, so the last literals are the same one
  · have htext := congrArg (·.toList ++ []) h
    simp only [toList_disjunctionText] at htext
    exact (intercalate_append_inj (fun k _ => k.selfDelimiting_numbered) (List.cons_ne_nil l ls)
      (List.cons_ne_nil m ms) (fun r => endsTerm_blank _) trivial trivial (by simp) (by simp)
      htext).1

/-! ## Messages -/

/-- A proposition begins with a letter and a digit. -/
theorem Proposition.numbered_append_ne {c d : Char} (hd : d.isDigit = false) (p : Proposition)
    (rest rest' : List Char) : p.numbered.toList ++ rest ≠ c :: d :: rest' := by
  have hterm : ∀ (t : Term) (r : List Char), t.numbered.toList ++ r ≠ c :: d :: rest' := by
    intro t r
    cases t with
    | var x =>
      rw [Term.toList_numbered_var]
      exact fun h => toString_append_ne hd x _ _ (List.cons.inj h).2
    | app f args =>
      rw [Term.toList_numbered_app, List.cons_append, List.append_assoc]
      exact fun h => toString_append_ne hd f _ _ (List.cons.inj h).2
  rcases p with t | a
  · exact hterm t rest
  · rcases a.equation_or_sides?_eq_none with ⟨s, t, rfl⟩ | ha
    · rw [numbered, Atom.toList_numbered_equation, List.append_assoc]
      exact hterm s _
    · rw [numbered, Atom.toList_numbered_of_sides?_eq_none ha, List.cons_append, List.append_assoc]
      exact fun h => toString_append_ne hd a.pred _ _ (List.cons.inj h).2

/-- A fixed text settles what comes next by its first character. -/
theorem halts_append {kind : Char → Bool} {w : String} {c : Char} {cs : List Char}
    (hw : w.toList = c :: cs) (hc : kind c = false) (x : String) : Halts kind (w ++ x).toList := by
  rw [String.toList_append, hw]
  exact hc

/-- The word between two propositions in a message ends the first one. -/
theorem Proposition.ends_and (x : String) : Ends (" and " ++ x).toList := by
  refine ⟨halts_append rfl rfl x, ?_⟩
  rw [String.toList_append]
  simp

/-- The text of a number determines it. -/
theorem toString_injective : Function.Injective (toString : Nat → String) :=
  injective_of_selfDelimiting trivial selfDelimiting_toString

/-- The text of a proposition determines it, a term or an atom. -/
theorem Proposition.numbered_injective : Function.Injective numbered :=
  injective_of_selfDelimiting ⟨trivial, by simp⟩ selfDelimiting_numbered

/-- The text of a literal determines it. -/
theorem Literal.numbered_injective : Function.Injective numbered :=
  injective_of_selfDelimiting trivial selfDelimiting_numbered

namespace InferenceError

/-- The message that two propositions cannot be unified determines both. -/
theorem message_nonUnifiable_inj {p q p' q' : Proposition}
    (h : (nonUnifiable p q).message = (nonUnifiable p' q').message) : p = p' ∧ q = q' := by
  unfold message at h
  rw [String.append_left_inj, String.append_assoc, String.append_assoc] at h
  obtain ⟨hp, hq⟩ := p.selfDelimiting_numbered.append_inj (Proposition.ends_and _)
    (Proposition.ends_and _) h
  rw [String.append_right_inj] at hq
  exact ⟨hp, Proposition.numbered_injective hq⟩

/-- The message that two literals cannot be factored determines both. -/
theorem message_negativeFactor_inj {l m l' m' : Literal}
    (h : (negativeFactor l m).message = (negativeFactor l' m').message) : l = l' ∧ m = m' := by
  unfold message at h
  simp only [String.append_assoc, String.append_right_inj] at h
  obtain ⟨hl, hm⟩ := l.selfDelimiting_numbered.append_inj (halts_append rfl rfl _)
    (halts_append rfl rfl _) h
  rw [String.append_right_inj] at hm
  exact ⟨hl, Literal.numbered_injective hm⟩

/-- The message about an index determines it and the bound that it exceeds. -/
theorem message_indexOutOfRange_inj {i n j m : Nat}
    (h : (indexOutOfRange i n).message = (indexOutOfRange j m).message) : i = j ∧ n = m := by
  unfold message at h
  simp only [String.append_assoc, String.append_right_inj] at h
  obtain ⟨hi, hn⟩ := (selfDelimiting_toString i).append_inj (halts_append rfl rfl _)
    (halts_append rfl rfl _) h
  rw [String.append_right_inj] at hn
  exact ⟨hi, toString_injective hn⟩

/-- The message about two propositions begins with a letter and a digit, every other one with
a word. -/
theorem message_ne_nonUnifiable {e : InferenceError} (he : ∀ p q, e ≠ nonUnifiable p q)
    (p q : Proposition) : e.message ≠ (nonUnifiable p q).message := by
  -- the second character of every other message is a letter, not a digit
  have hword : ∀ {w x y : String} {c d : Char} {cs : List Char}, w.toList = c :: d :: cs →
      d.isDigit = false → w ++ x ≠ p.numbered ++ y := by
    intro w x y c d cs hw hd h
    rw [← String.toList_inj, String.toList_append, String.toList_append, hw] at h
    exact p.numbered_append_ne hd _ _ h.symm
  intro h
  unfold message at h
  cases e with
  | nonUnifiable p' q' => exact he p' q' rfl
  | _ =>
    simp only [String.append_assoc] at h
    exact hword rfl rfl h

/-- **Messages are unambiguous.** -/
theorem message_injective : Function.Injective message := by
  intro e e' h
  have htext := h
  unfold message at htext
  -- two kinds of message differ in their first words
  cases e with
  | nonUnifiable p q =>
    cases e' with
    | nonUnifiable p' q' =>
      obtain ⟨rfl, rfl⟩ := message_nonUnifiable_inj h
      rfl
    | _ => exact absurd h.symm (message_ne_nonUnifiable (by simp) p q)
  | degenerateReplacement i =>
    cases e' with
    | nonUnifiable p q => exact absurd h (message_ne_nonUnifiable (by simp) p q)
    | degenerateReplacement j =>
      rw [String.append_left_inj, String.append_right_inj] at htext
      rw [toString_injective htext]
    | _ => exact absurd (congrArg String.toList htext) (by simp)
  | negativeFactor l m =>
    cases e' with
    | nonUnifiable p q => exact absurd h (message_ne_nonUnifiable (by simp) p q)
    | negativeFactor l' m' =>
      obtain ⟨rfl, rfl⟩ := message_negativeFactor_inj h
      rfl
    | _ => exact absurd (congrArg String.toList htext) (by simp)
  | notEquation l =>
    cases e' with
    | nonUnifiable p q => exact absurd h (message_ne_nonUnifiable (by simp) p q)
    | notEquation l' =>
      rw [String.append_right_inj] at htext
      rw [Literal.numbered_injective htext]
    | _ => exact absurd (congrArg String.toList htext) (by simp)
  | indexOutOfRange i n =>
    cases e' with
    | nonUnifiable p q => exact absurd h (message_ne_nonUnifiable (by simp) p q)
    | indexOutOfRange j m =>
      obtain ⟨rfl, rfl⟩ := message_indexOutOfRange_inj h
      rfl
    | _ => exact absurd (congrArg String.toList htext) (by simp)
  | invalidPosition i =>
    cases e' with
    | nonUnifiable p q => exact absurd h (message_ne_nonUnifiable (by simp) p q)
    | invalidPosition j =>
      rw [String.append_left_inj, String.append_right_inj] at htext
      rw [toString_injective htext]
    | _ => exact absurd (congrArg String.toList htext) (by simp)

end InferenceError

/-- **Text by symbol number is unambiguous**: the text of a proposition or of a literal
determines it, the text of a clause determines its literals and their order, and the message
of an error determines the error with all values that it speaks of. -/
theorem numbered_unambiguous :
    Function.Injective Proposition.numbered ∧ Function.Injective Literal.numbered ∧
    (∀ c d : Clause, c.numbered = d.numbered → c.literals = d.literals) ∧
    Function.Injective InferenceError.message :=
  ⟨Proposition.numbered_injective, Literal.numbered_injective,
    fun _ _ h => disjunctionText_injective h, InferenceError.message_injective⟩

end Clausal
