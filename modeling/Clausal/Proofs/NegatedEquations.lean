/-
Which printed clauses are accepted when they are read. A negated equation is written as a
tilde before an equation in parentheses, and the grammar of clauses has no parentheses
behind a tilde. So the text of a clause with a negated equation in it is one statement
that is no item, and reading it fails at its first character. The text of any other clause
is accepted, over whatever signature it is read (`Session.accepts_annotated_iff`).

The printed words are therefore described here once more, this time for every literal
(`Literal.printedWords`): a literal that is no negated equation is printed as the words of
its expression, as before. The parser takes the literals in front of the first negated
equation, and fails on that one (`Parser.separated_eq_none`).

Clauses with negated equations are derived as easily as any. A factor of a clause that has
been read may be such a clause (`not_accepts_derived`).
-/
import Clausal.CommandLine
import Clausal.Proofs.RoundTrip

set_option autoImplicit false

namespace Clausal

open Problem

/-- The literal is the negation of an equation. -/
def Literal.isNegatedEquation (l : Literal) : Bool := l.negated && l.atom.sides?.isSome

/-- The condition under which a literal is read back. -/
theorem Literal.isNegatedEquation_eq_false_iff {l : Literal} :
    l.isNegatedEquation = false ↔ (l.negated = true → l.atom.sides? = none) := by
  rcases hnegated : l.negated with _ | _ <;> rcases hsides : l.atom.sides? with _ | _ <;>
    simp [Literal.isNegatedEquation, hnegated, hsides]

namespace Problem.Parser

/-! ## Parsers that fail -/

section

variable {α β : Type}

/-- Where the first parser fails, the sequence does. -/
theorem bind_of_eq_none {p : Parser α} {f : α → Parser β} {ts : List Token} (h : p ts = none) :
    (p >>= f) ts = none := by
  show (p ts).bind (fun s => f s.1 s.2) = _
  rw [h]
  rfl

theorem map_of_eq_none {p : Parser α} {f : α → β} {ts : List Token} (h : p ts = none) :
    (f <$> p) ts = none :=
  bind_of_eq_none (f := fun a => pure (f a)) h

/-- A list with separators begins with its first entry. -/
theorem exists_intercalate_cons (separator w : List Token) (ws : List (List Token))
    (rest : List Token) : ∃ ts, separator.intercalate (w :: ws) ++ rest = w ++ ts := by
  rcases ws with _ | ⟨v, ws⟩
  · exact ⟨rest, by rw [List.intercalate_singleton]⟩
  · refine ⟨separator ++ separator.intercalate (v :: ws) ++ rest, ?_⟩
    simp only [List.intercalate_cons_cons, List.append_assoc]

/-- A list with marks in between is not parsed if one of its entries is not, provided that
the parser takes the good entries for what they are and so comes to a bad one. -/
theorem separated_eq_none {m : String} {p : Parser β} {w : α → List Token} {bad : α → Bool}
    {follow : List Token → Prop} (hmark : ∀ ts, follow (.mark m :: ts)) {as : List α}
    (hgood : ∀ a ∈ as, bad a = false → ∀ ts, follow ts → ∃ b, p (w a ++ ts) = some (b, ts))
    (hbad : ∀ a, bad a = true → ∀ ts, p (w a ++ ts) = none) (hmem : ∃ a ∈ as, bad a = true)
    (fuel : Nat) (rest : List Token) :
    separated m p fuel ([Token.mark m].intercalate (as.map w) ++ rest) = none := by
  induction as generalizing fuel with
  | nil =>
    obtain ⟨a, ha, -⟩ := hmem
    exact absurd ha List.not_mem_nil
  | cons a as ih =>
    rcases fuel with _ | fuel
    · rfl
    · by_cases ha : bad a = true
      · obtain ⟨ts, hts⟩ := exists_intercalate_cons [Token.mark m] (w a) (as.map w) rest
        rw [List.map_cons, hts, separated, bind_of_eq_none (hbad a ha ts)]
      · -- the bad entry comes later, so there is a mark behind this one
        have hlater : ∃ a ∈ as, bad a = true := by
          obtain ⟨b, hb, hbad⟩ := hmem
          rcases List.mem_cons.1 hb with rfl | hb
          · exact absurd hbad ha
          · exact ⟨b, hb, hbad⟩
        have hrec := ih (fun b hb => hgood b (List.mem_cons_of_mem a hb)) hlater fuel
        rcases as with _ | ⟨c, as⟩
        · obtain ⟨b, hb, -⟩ := hlater
          exact absurd hb List.not_mem_nil
        · obtain ⟨b, hb⟩ := hgood a List.mem_cons_self (Bool.eq_false_iff.2 ha)
            (.mark m :: ([Token.mark m].intercalate ((c :: as).map w) ++ rest)) (hmark _)
          have hwords : [Token.mark m].intercalate ((a :: c :: as).map w) ++ rest =
              w a ++ .mark m :: ([Token.mark m].intercalate ((c :: as).map w) ++ rest) := by
            simp only [List.map_cons, List.intercalate_cons_cons, List.append_assoc,
              List.cons_append, List.nil_append]
          rw [hwords, separated, bind_of_eq hb, bind_of_eq (accept_cons m _), if_pos rfl,
            bind_of_eq_none hrec]

end

/-- No literal has a parenthesis behind its tilde. -/
theorem literal_not_open (fuel : Nat) (ts : List Token) :
    literal fuel (.mark "~" :: .mark "(" :: ts) = none := by
  have hexpr : expr fuel (.mark "(" :: ts) = none := by
    rcases fuel with _ | fuel <;> rfl
  have hsystem : atSystemWord (.mark "(" :: ts) = some (false, .mark "(" :: ts) := rfl
  have hatom : negatedAtom fuel (.mark "(" :: ts) = none := by
    rw [negatedAtom, bind_of_eq hsystem, if_neg (by decide), bind_of_eq_none hexpr]
  rw [literal, bind_of_eq (accept_cons "~" _), if_pos rfl, map_of_eq_none hatom]

end Problem.Parser

/-! ## The words of printed literals -/

variable {σ : Signature}

/-- The words that a literal is printed as. -/
def Literal.printedWords (σ : Signature) (l : Literal) : List Token :=
  if l.isNegatedEquation then
    .mark "~" :: .mark "(" :: ((l.atom.expr σ).words ++ [.mark ")"])
  else (l.expr σ).words

/-- Any other literal is written with its own words. -/
theorem Literal.printedWords_of_eq_false {l : Literal} (h : l.isNegatedEquation = false) :
    l.printedWords σ = (l.expr σ).words := by
  rw [Literal.printedWords, h, if_neg Bool.false_ne_true]

/-- A negated equation is written in parentheses behind the tilde. -/
theorem Literal.printedWords_of_eq_true {l : Literal} (h : l.isNegatedEquation = true) :
    l.printedWords σ = .mark "~" :: .mark "(" :: ((l.atom.expr σ).words ++ [.mark ")"]) := by
  rw [Literal.printedWords, if_pos h]

/-- The text of any literal is its printed words. -/
theorem Literal.Over.writes_printedWords (hσ : σ.WellFormed) {l : Literal} (hl : l.Over σ) :
    Writes Stops (l.named σ).toList (l.printedWords σ) := by
  rcases hequation : l.isNegatedEquation with _ | _
  · rw [Literal.printedWords_of_eq_false hequation]
    exact Literal.Over.writes_named hσ hl (Literal.isNegatedEquation_eq_false_iff.1 hequation)
  · have htext : (l.named σ).toList = '~' :: '(' :: ((l.atom.named σ).toList ++ [')']) := by
      rw [Literal.isNegatedEquation, Bool.and_eq_true] at hequation
      simp [Literal.named, hequation.1, hequation.2]
    have hclose : Writes Stops [')'] [.mark ")"] := writes_close.mono fun _ _ => trivial
    have hclosed := (Atom.Over.writes_named hσ hl).append hclose fun _ _ => rfl
    rw [htext, Literal.printedWords_of_eq_true hequation]
    exact writes_not.append (writes_open.append_of_anything hclosed) fun _ _ => rfl

/-- The text of any clause is the printed words of its literals with bars in between. -/
theorem Clause.Printable.writes_printedWords (hσ : σ.WellFormed) {c : Clause}
    (hc : c.Printable σ) :
    Writes Stops (c.named σ).toList
      ([Token.mark "|"].intercalate (c.literals.map (Literal.printedWords σ))) := by
  rw [hc.toList_named]
  exact writes_intercalate writes_bar (fun _ => rfl) hc.nonempty fun l hl =>
    Literal.Over.writes_printedWords hσ (hc.known l hl)

/-- No literal is printed without words. -/
theorem Literal.length_printedWords_pos (σ : Signature) (l : Literal) :
    0 < (l.printedWords σ).length := by
  rcases hequation : l.isNegatedEquation with _ | _
  · rw [Literal.printedWords_of_eq_false hequation]
    exact Parser.forall_literalWords_pos [l.expr σ] _ (by simp)
  · rw [Literal.printedWords_of_eq_true hequation, List.length_cons]
    omega

/-- Only a tilde, and no other mark, begins a literal. -/
theorem Literal.Over.notNext_printedWords (hσ : σ.WellFormed) {l : Literal} (hl : l.Over σ)
    {m : String} (hm : m ≠ "~") (ts : List Token) :
    Parser.NotNext m (l.printedWords σ ++ ts) := by
  rcases hequation : l.isNegatedEquation with _ | _
  · rw [Literal.printedWords_of_eq_false hequation]
    exact Parser.notNext_literalWords (Literal.Over.wellSpelled_expr hσ hl) hm ts
  · rw [Literal.printedWords_of_eq_true hequation]
    exact Parser.notNext_cons fun heq => hm (Token.mark.inj heq).symm

/-! ## Statements that are no items -/

/-- A clause with a negated equation is not parsed, although the literals before the first
one are. -/
theorem Clause.Printable.clause_printedWords (hσ : σ.WellFormed) {c : Clause}
    (hc : c.Printable σ) (hequation : ∃ l ∈ c.literals, l.isNegatedEquation = true) {fuel : Nat}
    (hfuel : ([Token.mark "|"].intercalate (c.literals.map (Literal.printedWords σ))).length ≤ fuel)
    (rest : List Token) :
    Parser.clause fuel
      ([Token.mark "|"].intercalate (c.literals.map (Literal.printedWords σ)) ++ rest) = none := by
  obtain ⟨-, hlengths⟩ := Parser.intercalate_bounds hfuel
    (List.forall_mem_map.2 fun l _ => l.length_printedWords_pos σ)
  -- a literal before the negated equation is parsed back
  have hgood : ∀ l ∈ c.literals, l.isNegatedEquation = false → ∀ ts, Parser.EndsLiteral ts →
      ∃ e, Parser.literal fuel (l.printedWords σ ++ ts) = some (e, ts) := by
    intro l hl hl' ts hts
    have hlength := hlengths _ (List.mem_map_of_mem hl)
    rw [Literal.printedWords_of_eq_false hl'] at hlength ⊢
    have hne : ∀ lhs rhs, l.expr σ ≠ .negative (.equation lhs rhs) :=
      Literal.expr_ne_negatedEquation (Literal.isNegatedEquation_eq_false_iff.1 hl')
    exact ⟨_, Parser.literal_words (Literal.Over.wellSpelled_expr hσ (hc.known l hl)) hne hlength hts⟩
  -- behind the tilde no atom begins with a parenthesis
  have hbad : ∀ l : Literal, l.isNegatedEquation = true → ∀ ts,
      Parser.literal fuel (l.printedWords σ ++ ts) = none := by
    intro l hl ts
    rw [Literal.printedWords_of_eq_true hl]
    exact Parser.literal_not_open fuel _
  -- the clause itself does not stand in parentheses
  have hopen : Parser.NotNext "("
      ([Token.mark "|"].intercalate (c.literals.map (Literal.printedWords σ)) ++ rest) := by
    refine Parser.notNext_intercalate (by simpa using hc.nonempty) ?_ rest
    exact List.forall_mem_map.2 fun l hl =>
      Literal.Over.notNext_printedWords hσ (hc.known l hl) (by decide)
  rw [Parser.clause, Parser.bind_of_eq (Parser.accept_of_notNext hopen), if_neg (by decide)]
  exact Parser.separated_eq_none Parser.endsLiteral_bar hgood hbad hequation fuel rest

/-- A formula whose body is no clause is no item. -/
theorem parse?_formulaWords_eq_none {name : Token} (hname : name.isLabel = true) (role : String)
    {body : List Token}
    (hbody : ∀ {fuel : Nat}, body.length ≤ fuel → ∀ rest, Parser.clause fuel (body ++ rest) = none)
    (remark : List Token) :
    Item.parse? (formulaWords name role body remark) = none := by
  generalize hfuel : (formulaWords name role body remark).length = fuel
  have hlength : body.length ≤ fuel + 1 := by
    simp only [formulaWords, List.length_cons, List.length_append] at hfuel
    omega
  -- the words before the body are taken, and then the body fails
  have hannotated : Parser.annotated (Parser.clause (fuel + 1)) (fuel + 1)
      (formulaWords name role body remark).tail = none := by
    rw [formulaWords, List.tail_cons, Parser.annotated,
      Parser.bind_of_eq (Parser.expect_cons "(" _),
      Parser.bind_of_eq (Parser.name_of_isLabel hname _),
      Parser.bind_of_eq (Parser.expect_cons "," _),
      Parser.bind_of_eq (Parser.discard_of_eq (Parser.role_lower role _)),
      Parser.bind_of_eq (Parser.expect_cons "," _), Parser.bind_of_eq_none (hbody hlength _)]
  have hitem : ∀ spelling, Parser.item (fuel + 1) spelling (formulaWords name role body remark) =
      none := by
    intro spelling
    have hnext : Parser.next (formulaWords name role body remark) =
        some (.lower "cnf", (formulaWords name role body remark).tail) := rfl
    rw [Parser.item, Parser.bind_of_eq hnext]
    exact Parser.bind_of_eq_none hannotated
  rw [Item.parse?, hfuel, hitem]

/-- A text that is one statement and no item is a document whose fault is at its first
character. -/
theorem IsStatement.ofBytes_eq {text : String} {words : List Token} (h : IsStatement text words)
    (hparse : Item.parse? words = none) (hgap : skipGaps text.toList = text.toList)
    (hne : text.toList ≠ []) : Document.ofBytes (utf8 text) = ⟨[], some 0⟩ := by
  have hitem : item? (skipGaps text.toList) = none := by
    rw [item?_skipGaps, h.item?_eq, hparse]
    rfl
  rw [Document.ofBytes, map_ofNat_utf8 h.ascii, Document.ofText, Document.ofTextAt, hgap,
    if_neg hne]
  split
  · rw [Nat.sub_self]
  · next hsome =>
    rw [hgap] at hitem
    rw [hitem] at hsome
    cases hsome

/-- **A clause with a negated equation is written as no item.** -/
theorem Clause.Printable.ofBytes_annotated (hσ : σ.WellFormed) {c : Clause} (hc : c.Printable σ)
    (hequation : ∃ l ∈ c.literals, l.isNegatedEquation = true) (index : Nat) :
    Document.ofBytes (utf8 (c.annotated σ index)) = ⟨[], some 0⟩ := by
  obtain ⟨role, us, -, hstatement⟩ := hc.isStatement index (hc.writes_printedWords hσ)
  have hlabel := (hc.writtenName_spelled index).ofSpelling.2.1
  have hparse := parse?_formulaWords_eq_none hlabel role (hc.clause_printedWords hσ hequation) us
  -- the text begins with a word, and not with a gap
  obtain ⟨cs, hcs⟩ : ∃ cs, (c.annotated σ index).toList = 'c' :: cs := by
    rw [← List.head?_eq_some_iff, Clause.annotated]
    split <;> simp
  refine hstatement.ofBytes_eq hparse ?_ ?_
  · rw [hcs, skipGaps]
    rfl
  · rw [hcs]
    exact List.cons_ne_nil _ _

/-! ## Readings that succeed -/

section

variable {α β : Type} {m : InClause α}

/-- The computation returns something in every scope. -/
def Succeeds (m : InClause α) : Prop := ∀ s : Scope, ∃ a s', m.run s = (.ok a, s')

theorem succeeds_pure (a : α) : Succeeds (pure a) := fun s => ⟨a, s, rfl⟩

theorem succeeds_modifyGet (f : Scope → α × Scope) : Succeeds (modifyGet f) :=
  fun s => ⟨(f s).1, (f s).2, rfl⟩

/-- One after the other, if the second succeeds whatever the first returns. -/
theorem Succeeds.bind {f : α → InClause β} (hm : Succeeds m) (hf : ∀ a, Succeeds (f a)) :
    Succeeds (m >>= f) := by
  intro s
  obtain ⟨a, s', hrun⟩ := hm s
  rw [run_bind, hrun]
  exact hf a s'

theorem Succeeds.map (hm : Succeeds m) (f : α → β) : Succeeds (f <$> m) := by
  rw [← bind_pure_comp]
  exact hm.bind fun a => succeeds_pure (f a)

end

/-- A list of printed terms is read if each of them is. -/
theorem succeeds_readList {ts : List Term} (h : ∀ t ∈ ts, Succeeds (t.expr σ).read) :
    Succeeds (Expr.readList (ts.map (Term.expr σ))) := by
  induction ts with
  | nil => exact succeeds_pure []
  | cons t ts ih =>
    rw [List.forall_mem_cons] at h
    exact h.1.bind fun t' => (ih h.2).bind fun ts' => succeeds_pure (t' :: ts')

/-- No reserved word is in the expression of a term. -/
theorem Term.succeeds_read (σ : Signature) (t : Term) : Succeeds (t.expr σ).read := by
  induction t with
  | var x => exact succeeds_modifyGet _
  | app f args ih =>
    rw [Term.expr]
    split
    · exact succeeds_modifyGet _
    · rw [Term.exprList_eq]
      exact (succeeds_readList ih).bind fun ts => succeeds_modifyGet _

/-- A printed atom has no reserved name in it, so it is read. -/
theorem Atom.succeeds_read (σ : Signature) (a : Atom) : Succeeds (a.expr σ).read := by
  rw [Atom.expr]
  split
  · next s t _ =>
    exact (s.succeeds_read σ).bind fun s' => (t.succeeds_read σ).bind fun t' => succeeds_pure _
  · exact (succeeds_readList fun t _ => t.succeeds_read σ).bind fun ts => succeeds_modifyGet _

/-- A printed literal is read, once it has been parsed. -/
theorem Literal.succeeds_read (σ : Signature) (l : Literal) : Succeeds (l.expr σ).read := by
  rw [Literal.expr]
  split
  · exact (l.atom.succeeds_read σ).map Literal.neg
  · exact (l.atom.succeeds_read σ).map Literal.pos

/-- So are all literals of a clause. -/
theorem succeeds_readLiterals (σ : Signature) (ls : List Literal) :
    Succeeds (readLiterals (ls.map (Literal.expr σ))) := by
  induction ls with
  | nil => exact succeeds_pure []
  | cons l ls ih => exact (l.succeeds_read σ).bind fun m => ih.bind fun ms => succeeds_pure (m :: ms)

/-- The expressions of literals are read as a clause over any signature. -/
theorem exists_readClause (σ τ : Signature) (name : String) (ls : List Literal) :
    ∃ d υ, (readClause name (ls.map (Literal.expr σ))).run τ = (.ok d, υ) := by
  obtain ⟨ms, s, hrun⟩ := succeeds_readLiterals σ ls ⟨τ, []⟩
  refine ⟨Clause.make ms (.named name), s.signature, ?_⟩
  show (((readLiterals _).run ⟨τ, []⟩).1.map _, ((readLiterals _).run ⟨τ, []⟩).2.signature) = _
  rw [hrun]
  rfl

/-! ## Accepted texts -/

namespace Session

/-- **Printed clauses are accepted if no equation is negated in them, and only then.**
With a negated equation in it, the text of a clause of the session is refused at its first
character, and the signature stays as it is. -/
theorem accepts_annotated_iff {s : Session} (hs : s.Reachable) {c : Clause} (hc : c ∈ s.clauses)
    (files : FileSystem) (index : Nat) (τ : Signature) :
    ((∃ ds υ, (fromText files (c.annotated s.signature index)).run τ = (.ok ds, υ)) ↔
        ∀ l ∈ c.literals, l.isNegatedEquation = false) ∧
      ((∃ l ∈ c.literals, l.isNegatedEquation = true) →
        (fromText files (c.annotated s.signature index)).run τ = (.error (.malformed 0), τ)) := by
  obtain ⟨hσ, hclauses⟩ := sound_of_reachable hs
  have hprintable := hclauses c hc
  have hrefused : (∃ l ∈ c.literals, l.isNegatedEquation = true) →
      (fromText files (c.annotated s.signature index)).run τ = (.error (.malformed 0), τ) := by
    intro hequation
    rw [fromText, hprintable.ofBytes_annotated hσ hequation index]
    rfl
  refine ⟨⟨?_, ?_⟩, hrefused⟩
  · rintro ⟨ds, υ, hrun⟩ l hl
    by_contra hequation
    rw [hrefused ⟨l, hl, Bool.eq_true_of_not_eq_false hequation⟩] at hrun
    cases hrun
  · intro hequations
    have hspelled := hprintable.spelled_annotated hσ
      (fun l hl => Literal.isNegatedEquation_eq_false_iff.1 (hequations l hl)) index
    obtain ⟨d, υ, hrun⟩ := exists_readClause s.signature τ (c.writtenName index) c.literals
    refine ⟨[d], υ, ?_⟩
    rw [fromText, hspelled.ofBytes_eq]
    exact run_read_clause _ _ hrun

/-- A denied equation may be read, and a factor of the clause is printed with a negated
one. -/
theorem accepts_annotated_iff_factor :
    ∃ (s : Session) (c : Clause), s.Reachable ∧ c ∈ s.clauses ∧
      (∃ l ∈ c.literals, l.isNegatedEquation = true) ∧
      c.annotated s.signature 0 =
        "cnf(derived_0, lemma, ~(b = c) | p(b), inference(factoring, [], [a]))." ∧
      (fromText .empty (c.annotated s.signature 0)).run s.signature =
        (.error (.malformed 0), s.signature) := by
  let text := "cnf(a, axiom, p(X) | p(b) | X != c)."
  let given : Clause := ⟨[.pos ⟨1, [.var 0]⟩, .pos ⟨1, [.app 0 []]⟩,
    .neg (.equation (.var 0) (.app 1 []))], .named "a"⟩
  let c : Clause := ⟨[.neg (.equation (.app 0 []) (.app 1 [])), .pos ⟨1, [.app 0 []]⟩],
    .derived .factoring [some "a"]⟩
  let s : Session := new.read (fromText .empty text)
  have hclauses : s.clauses = [given] := by decide +kernel
  have hfactors : given.factors = .ok [c] := by decide +kernel
  have hgiven : given ∈ s.clauses := by
    rw [hclauses]
    exact List.mem_singleton_self given
  -- a text is read, and then its clause is factored
  have hs : Reachable ⟨s.signature, s.clauses ++ [c]⟩ :=
    .tail (.single (.readText new .empty text)) (.factors hgiven hfactors)
  have hmem : c ∈ s.clauses ++ [c] := List.mem_append_right _ (List.mem_singleton_self c)
  have hequation : ∃ l ∈ c.literals, l.isNegatedEquation = true := by decide
  have htext : c.annotated s.signature 0 =
      "cnf(derived_0, lemma, ~(b = c) | p(b), inference(factoring, [], [a]))." := by
    decide +kernel
  exact ⟨_, c, hs, hmem, hequation, htext,
    (accepts_annotated_iff hs hmem .empty 0 s.signature).2 hequation⟩

end Session

/-- **Not everything that is derived and printed is accepted.** The factor `~(b = c) | p(b)`
of the clause `p(X) | p(b) | X != c` is not. -/
theorem not_accepts_derived :
    ¬∀ (text : String) (clauses : List Clause) (σ : Signature),
      (fromText .empty text).run .initial = (.ok clauses, σ) →
      ∀ s ∈ selections clauses, ∀ derived, CommandLine.derive s.1 s.2 = .ok derived →
      ∀ c ∈ derived, ∀ index : Nat,
        ∃ ds υ, (fromText .empty (c.annotated σ index)).run σ = (.ok ds, υ) := by
  intro h
  let text := "cnf(a, axiom, p(X) | p(b) | X != c)."
  let given : Clause := ⟨[.pos ⟨1, [.var 0]⟩, .pos ⟨1, [.app 0 []]⟩,
    .neg (.equation (.var 0) (.app 1 []))], .named "a"⟩
  let c : Clause := ⟨[.neg (.equation (.app 0 []) (.app 1 [])), .pos ⟨1, [.app 0 []]⟩],
    .derived .factoring [some "a"]⟩
  let σ : Signature := ((fromText .empty text).run .initial).2
  have hread : ((fromText .empty text).run .initial).1 = .ok [given] := by decide +kernel
  have hderive : CommandLine.derive given [] = .ok [c] := by decide +kernel
  have hrefused : ((fromText .empty (c.annotated σ 0)).run σ).1 = .error (.malformed 0) := by
    decide +kernel
  -- the clause that is derived would be read back, and is refused
  obtain ⟨ds, υ, hrun⟩ := h text [given] σ (Prod.ext hread rfl) (given, [])
    (List.mem_singleton_self _) [c] hderive c (List.mem_singleton_self c) 0
  rw [hrun] at hrefused
  exact nomatch hrefused

end Clausal
