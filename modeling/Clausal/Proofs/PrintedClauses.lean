/-
Printed clauses are read as what they say. The text of a term, a literal or a clause by
the names of a signature is put together from words, and the words are those of an
expression: `Term.expr`, `Atom.expr` and `Literal.expr` give the expression, in which a
variable has the name under which it is written. So the text of a clause, with its name,
its role and the inference that it comes from, is a document of one item, and the item is
the clause (`Clause.Printable.spelled_annotated`).

Here everything is still about texts; what becomes of the names when the item is read is
another matter.
-/
import Clausal.Proofs.OverSignature
import Clausal.Proofs.Parsing
import Clausal.Problem.Reading
import Clausal.Rendering.Named

set_option autoImplicit false

namespace Clausal

open Problem

/-! ## Expressions -/

namespace Term

mutual

/-- The expression that a term is written as. -/
def expr (σ : Signature) : Term → Expr
  | .var x => .var (σ.variableText x)
  | .app f args =>
    if (Token.ofSpelling (σ.functionText f)).isConstant then .constant (σ.functionText f)
    else .apply (σ.functionText f) (exprList σ args)

def exprList (σ : Signature) : List Term → List Expr
  | [] => []
  | t :: ts => t.expr σ :: exprList σ ts

end

/-- The list half is a map. -/
theorem exprList_eq (σ : Signature) (ts : List Term) : exprList σ ts = ts.map (expr σ) := by
  induction ts with
  | nil => rfl
  | cons t ts ih => rw [exprList, List.map_cons, ih]

end Term

/-- The atom that an atom is written as; a proper equation is written with its sides. -/
def Atom.expr (σ : Signature) (a : Atom) : AtomExpr :=
  match a.sides? with
  | some (s, t) => .equation (s.expr σ) (t.expr σ)
  | none => .plain (σ.predicateText a.pred) (a.args.map (Term.expr σ))

/-- The literal as it is written. A negated equation is written as one here, not as a denied
equation. -/
def Literal.expr (σ : Signature) (l : Literal) : LiteralExpr :=
  if l.negated then .negative (l.atom.expr σ) else .positive (l.atom.expr σ)

/-! ## Names -/

variable {σ : Signature}

/-- A variable is written as a name of a variable. -/
theorem Signature.WellFormed.isVariableName_variableText (h : σ.WellFormed) {x : Nat}
    (hx : x < σ.variableNames.size) : IsVariableName (σ.variableText x) := by
  have hname : σ.variableName? x = some σ.variableNames[x] := Array.getElem?_eq_getElem hx
  rw [Signature.variableText, hname]
  refine ((h.isVariableName hname).append ?_).append fun _ => isWordChar_of_mem_toString
  exact List.all_eq_true.1 (by decide)

/-- A known function symbol is written by its name. -/
theorem Signature.functionText_of_eq_some {f : Nat} {s : Symbol}
    (h : σ.functionSymbol? f = some s) : σ.functionText f = s.name := by
  rw [Signature.functionText, h]

/-- A known predicate symbol is written by its name. -/
theorem Signature.predicateText_of_eq_some {p : Nat} {s : Symbol}
    (h : σ.predicateSymbol? p = some s) : σ.predicateText p = s.name := by
  rw [Signature.predicateText, h]

namespace Term

variable {f : Nat} {name : String} {args : List Term}

/-- An application of a symbol with the spelling of a name is written with its arguments. -/
theorem expr_app_of_isAtomic (hf : σ.functionSymbol? f = some ⟨name, args.length⟩)
    (h : Spells Token.isAtomic name) :
    (app f args).expr σ = .apply name (args.map (expr σ)) := by
  have hkind : (Token.ofSpelling name).isConstant = false := by
    have := h.ofSpelling.2.1
    cases ht : Token.ofSpelling name <;> first | rfl | (rw [ht] at this; cases this)
  rw [expr, σ.functionText_of_eq_some hf, hkind, exprList_eq]
  rfl

/-- A number or a distinct object is written alone. -/
theorem expr_app_of_isConstant (hf : σ.functionSymbol? f = some ⟨name, args.length⟩)
    (h : Spells Token.isConstant name) : (app f args).expr σ = .constant name := by
  rw [expr, σ.functionText_of_eq_some hf, h.ofSpelling.2.1]
  rfl

/-- A term over a well-formed signature is written with words of the right kind. -/
theorem Over.wellSpelled_expr (hσ : σ.WellFormed) {t : Term} (ht : t.Over σ) :
    (t.expr σ).WellSpelled := by
  induction ht with
  | var known => exact .var (hσ.isVariableName_variableText known)
  | app known args_over ih =>
    rcases hσ.isFunction known with hname | ⟨hname, -⟩
    · rw [expr_app_of_isAtomic known hname]
      exact .apply hname (List.forall_mem_map.2 ih)
    · rw [expr_app_of_isConstant known hname]
      exact .constant hname

end Term

/-! ## Texts of terms and literals -/

/-- A word is written by its spelling. -/
theorem writes_word {kind : Token → Bool} {s : String} (h : Spells kind s) :
    Writes Stops s.toList [.ofSpelling s] := by
  obtain ⟨hreadable, -, htext⟩ := h.ofSpelling
  have := hreadable.writes
  rwa [htext] at this

/-- A tilde before a word is a mark by itself. -/
theorem halts_word {kind : Token → Bool} {s : String} (h : Spells kind s) (rest : List Char) :
    Halts (fun c => c == '&' || c == '|') (s.toList ++ rest) := by
  obtain ⟨hreadable, -, htext⟩ := h.ofSpelling
  have hscan := @Token.Readable.scan?_eq _ hreadable [] trivial
  rw [htext, List.append_nil] at hscan
  have hhalts := halts_of_scan? hscan hreadable.isMark_eq
  -- a word is not empty, so what follows it makes no difference
  rcases hs : s.toList with _ | ⟨c, cs⟩
  · rw [hs] at hscan
    cases hscan
  · rw [hs] at hhalts
    exact hhalts

/-- A list with commas and blanks is read as a list with commas. -/
theorem writes_commaList {α : Type} {f : α → String} {g : α → List Token} {as : List α}
    (hne : as ≠ []) (h : ∀ a ∈ as, Writes Stops (f a).toList (g a)) :
    Writes Stops (", ".intercalate (as.map f)).toList
      ([Token.mark ","].intercalate (as.map g)) := by
  rw [String.toList_intercalate, List.map_map]
  exact writes_intercalate writes_comma (fun _ => rfl) hne h

/-- A name and its arguments are written as the words of a call. -/
theorem writes_application {α : Type} {kind : Token → Bool} {name : String}
    (hname : Spells kind name) {f : α → String} {g : α → List Token} {as : List α}
    (h : ∀ a ∈ as, Writes Stops (f a).toList (g a)) :
    Writes Stops (name ++ argumentText ", " (as.map f)).toList
      (.ofSpelling name :: argumentWords (as.map g)) := by
  rcases as with _ | ⟨a, as⟩
  · simpa [argumentText, argumentWords] using writes_word hname
  · have hlist := writes_commaList (List.cons_ne_nil a as) h
    have hargs : Writes Stops ('(' :: ((", ".intercalate ((a :: as).map f)).toList ++ [')']))
        (.mark "(" :: ([Token.mark ","].intercalate ((a :: as).map g) ++ [.mark ")"])) :=
      writes_open.append_of_anything
        (hlist.append (writes_close.mono fun _ _ => trivial) fun _ _ => rfl)
    have htext : (name ++ argumentText ", " ((a :: as).map f)).toList =
        name.toList ++ '(' :: ((", ".intercalate ((a :: as).map f)).toList ++ [')']) := by
      simp [argumentText]
    rw [htext]
    exact (writes_word hname).append hargs fun _ _ => rfl

/-- **The text of a term is its words.** -/
theorem Term.Over.writes_named (hσ : σ.WellFormed) {t : Term} (ht : t.Over σ) :
    Writes Stops (t.named σ).toList (t.expr σ).words := by
  induction ht with
  | var known =>
    exact (hσ.isVariableName_variableText known).readable.writes
  | @app f name args known args_over ih =>
    have htext : (Term.app f args).named σ =
        name ++ argumentText ", " (args.map (Term.named σ)) := by
      rw [Term.named, Term.namedList_eq, σ.functionText_of_eq_some known]
    rw [htext]
    rcases hσ.isFunction known with hname | ⟨hname, harity⟩
    · rw [expr_app_of_isAtomic known hname, Expr.words_apply, List.map_map]
      exact writes_application hname ih
    · -- a number or a distinct object has no arguments
      obtain rfl : args = [] := List.eq_nil_of_length_eq_zero harity
      rw [expr_app_of_isConstant known hname]
      exact writes_application hname ih

/-- An atom over a signature is an equation, or its symbol has the spelling of a name. -/
theorem Atom.Over.cases (hσ : σ.WellFormed) {a : Atom} (ha : a.Over σ) :
    (∃ s t, a = .equation s t ∧ s.Over σ ∧ t.Over σ) ∨
      a.sides? = none ∧ ∃ name, σ.predicateSymbol? a.pred = some ⟨name, a.args.length⟩ ∧
        Spells Token.isAtomic name := by
  rcases hsides : a.sides? with _ | ⟨s, t⟩
  · obtain ⟨name, hname⟩ := ha.known
    refine .inr ⟨rfl, name, hname, hσ.isPredicate hname fun hpred => ?_⟩
    -- the symbol of equality has two arguments
    rw [hpred, hσ.equality, Option.some.injEq, Symbol.mk.injEq] at hname
    obtain ⟨p, args⟩ := a
    obtain ⟨s, t, rfl⟩ := List.length_eq_two.1 hname.2.symm
    rw [Atom.sides?, Atom.isEquality, hpred] at hsides
    cases hsides
  · obtain rfl := Atom.sides?_eq_some_iff.1 hsides
    refine .inl ⟨s, t, rfl, ha.args_over s ?_, ha.args_over t ?_⟩ <;> simp [Atom.equation]

/-- An atom that is no equation is written as a predication. -/
theorem Atom.expr_of_sides?_eq_none {a : Atom} (h : a.sides? = none) :
    a.expr σ = .plain (σ.predicateText a.pred) (a.args.map (Term.expr σ)) := by
  rw [Atom.expr, h]

/-- Its text is the name of the predicate and the arguments. -/
theorem Atom.named_of_sides?_eq_none {a : Atom} (h : a.sides? = none) :
    a.named σ = σ.predicateText a.pred ++ argumentText ", " (a.args.map (Term.named σ)) := by
  rw [Atom.named, h, Term.namedList_eq]

/-- An atom over a well-formed signature is written with words of the right kind. -/
theorem Atom.Over.wellSpelled_expr (hσ : σ.WellFormed) {a : Atom} (ha : a.Over σ) :
    (a.expr σ).WellSpelled := by
  rcases ha.cases hσ with ⟨s, t, rfl, hs, ht⟩ | ⟨hsides, name, hname, hspelled⟩
  · exact .equation (hs.wellSpelled_expr hσ) (ht.wellSpelled_expr hσ)
  · rw [Atom.expr_of_sides?_eq_none hsides, σ.predicateText_of_eq_some hname]
    exact .plain hspelled
      (List.forall_mem_map.2 fun t ht => (ha.args_over t ht).wellSpelled_expr hσ)

/-- **The text of an atom is its words.** -/
theorem Atom.Over.writes_named (hσ : σ.WellFormed) {a : Atom} (ha : a.Over σ) :
    Writes Stops (a.named σ).toList (a.expr σ).words := by
  rcases ha.cases hσ with ⟨s, t, rfl, hs, ht⟩ | ⟨hsides, name, hname, hspelled⟩
  · have htext : ((Atom.equation s t).named σ).toList =
        (s.named σ).toList ++ ([' ', '=', ' '] ++ (t.named σ).toList) := by
      simp [Atom.named]
    rw [htext]
    exact (hs.writes_named hσ).append (writes_equals.append_of_anything (ht.writes_named hσ))
      fun _ _ => rfl
  · rw [Atom.named_of_sides?_eq_none hsides, Atom.expr_of_sides?_eq_none hsides,
      σ.predicateText_of_eq_some hname, AtomExpr.words, Expr.words_apply, List.map_map]
    exact writes_application hspelled fun t ht => (ha.args_over t ht).writes_named hσ

/-- A literal over a well-formed signature is written with words of the right kind. -/
theorem Literal.Over.wellSpelled_expr (hσ : σ.WellFormed) {l : Literal} (hl : l.Over σ) :
    (l.expr σ).WellSpelled := by
  have hatom := Atom.Over.wellSpelled_expr hσ hl
  rw [Literal.expr]
  split
  · exact .negative hatom
  · exact .positive hatom

/-- The text of a literal is read as its words, if it is no negated equation. -/
theorem Literal.Over.writes_named (hσ : σ.WellFormed) {l : Literal} (hl : l.Over σ)
    (hequation : l.negated = true → l.atom.sides? = none) :
    Writes Stops (l.named σ).toList (l.expr σ).words := by
  have hatom := Atom.Over.writes_named hσ hl
  rcases hnegated : l.negated with _ | _
  · rw [Literal.named, Literal.expr, hnegated]
    exact hatom
  · have hsides := hequation hnegated
    have htext : (l.named σ).toList = '~' :: (l.atom.named σ).toList := by
      simp [Literal.named, hnegated, hsides]
    rw [htext, Literal.expr, hnegated]
    -- the tilde is a mark by itself, because a name comes next
    refine writes_not.append hatom fun rest _ => ?_
    rcases Atom.Over.cases hσ hl with ⟨s, t, heq, -⟩ | ⟨-, name, hname, hspelled⟩
    · rw [heq, Atom.sides?_equation] at hsides
      cases hsides
    · show Halts _ ((l.atom.named σ).toList ++ rest)
      rw [Atom.named_of_sides?_eq_none hsides, σ.predicateText_of_eq_some hname,
        String.toList_append, List.append_assoc]
      exact halts_word hspelled _

/-! ## Texts of clauses -/

/-- A clause that can be printed is not empty, so its text is its literals with bars in
between. -/
theorem Clause.Printable.toList_named {c : Clause} (hc : c.Printable σ) :
    (c.named σ).toList =
      [' ', '|', ' '].intercalate (c.literals.map fun l => (l.named σ).toList) := by
  have hne : c.literals.map (Literal.named σ) ≠ [] := by simpa using hc.nonempty
  rw [Clause.named, disjunctionText]
  · rw [String.toList_intercalate, List.map_map]
    rfl
  · exact hne

/-- **The text of a clause is its words**, unless an equation is negated in it. -/
theorem Clause.Printable.writes_named (hσ : σ.WellFormed) {c : Clause} (hc : c.Printable σ)
    (hequations : ∀ l ∈ c.literals, l.negated = true → l.atom.sides? = none) :
    Writes Stops (c.named σ).toList (Parser.clauseWords (c.literals.map (Literal.expr σ))) := by
  rw [hc.toList_named, Parser.clauseWords, List.map_map]
  exact writes_intercalate writes_bar (fun _ => rfl) hc.nonempty fun l hl =>
    Literal.Over.writes_named hσ (hc.known l hl) (hequations l hl)

/-- A word of small letters is read as such. -/
theorem writes_lower {w : String} (h : Token.scan? w.toList = some (.lower w, [])) :
    Writes Stops w.toList [.lower w] :=
  (Token.readable_of_scan? h rfl).writes

/-- The name of a derived clause that has none of its own is a word. -/
theorem spells_derived (n : Nat) : Spells Token.isLabel ("derived_" ++ toString n) := by
  have htext : "derived_" ++ toString n =
      String.ofList ('d' :: ("erived_".toList ++ (toString n).toList)) := by
    apply String.toList_inj.1
    simp
  have hscan : Token.scan? ('d' :: ("erived_".toList ++ (toString n).toList ++ [])) =
      some (.lower ("derived_" ++ toString n), []) := by
    have hletters : ∀ d ∈ "erived_".toList, isWordChar d = true := List.all_eq_true.1 (by decide)
    rw [htext]
    refine Token.scan?_lower rfl (fun d hd => ?_) trivial
    rcases List.mem_append.1 hd with hd | hd
    · exact hletters d hd
    · exact isWordChar_of_mem_toString hd
  exact ⟨_, Token.readable_of_scan? hscan rfl, rfl, rfl⟩

/-- A clause is written under a word that may name a formula. -/
theorem Clause.Printable.writtenName_spelled {c : Clause} (hc : c.Printable σ) (index : Nat) :
    Spells Token.isLabel (c.writtenName index) := by
  rw [Clause.writtenName]
  rcases hlabel : c.label? with _ | label
  · exact spells_derived index
  · exact hc.label?_spelled hlabel

/-! ## Annotations -/

theorem isSource_brackets {items : List (List Token)} (h : ∀ ws ∈ items, Parser.IsSource ws) :
    Parser.IsSource (.mark "[" :: ([Token.mark ","].intercalate items ++ [.mark "]"])) := by
  rcases items with _ | ⟨ws, items⟩
  · exact .nil
  · exact .list (by simp) h

/-- The words that cite an inference by a rule from parents of these names. -/
def inferenceWords (rule : Rule) (parents : List String) : List Token :=
  .lower "inference" :: argumentWords [[.lower rule.name], [.mark "[", .mark "]"],
    .mark "[" :: ([Token.mark ","].intercalate (parents.map fun p => [.ofSpelling p]) ++
      [.mark "]"])]

/-- An inference with its parents says where a formula comes from. -/
theorem isSource_inferenceWords (rule : Rule) {parents : List String}
    (h : ∀ p ∈ parents, Spells Token.isLabel p) :
    Parser.IsSource (inferenceWords rule parents) := by
  refine .apply rfl (List.forall_mem_cons.2 ⟨Parser.isSource_of_isLabel rfl,
    List.forall_mem_cons.2 ⟨.nil, List.forall_mem_singleton.2 (isSource_brackets ?_)⟩⟩)
  exact List.forall_mem_map.2 fun p hp => Parser.isSource_of_isLabel (h p hp).ofSpelling.2.1

/-- A list of names in brackets is written as its words. -/
theorem writes_brackets {parents : List String} (h : ∀ p ∈ parents, Spells Token.isLabel p) :
    Writes Stops ("[" ++ ", ".intercalate parents ++ "]").toList
      (.mark "[" :: ([Token.mark ","].intercalate (parents.map fun p => [.ofSpelling p]) ++
        [.mark "]"])) := by
  have hlist : Writes Stops (", ".intercalate parents).toList
      ([Token.mark ","].intercalate (parents.map fun p => [.ofSpelling p])) := by
    by_cases hne : parents = []
    · rw [hne]
      exact .nil
    · have := writes_commaList (f := id) hne fun p hp => writes_word (h p hp)
      rwa [List.map_id] at this
  have hclose : Writes Stops [']'] [.mark "]"] := writes_closeList.mono fun _ _ => trivial
  have htext : ("[" ++ ", ".intercalate parents ++ "]").toList =
      '[' :: ((", ".intercalate parents).toList ++ [']']) := by
    simp
  rw [htext]
  exact writes_openList.append_of_anything (hlist.append hclose fun _ _ => rfl)

/-- An inference is written as its words, with the comma before it. -/
theorem writes_inference (rule : Rule) {parents : List String}
    (h : ∀ p ∈ parents, Spells Token.isLabel p) :
    Writes Stops (", inference(" ++ rule.name ++ ", [], [" ++ ", ".intercalate parents ++
      "])").toList (.mark "," :: inferenceWords rule parents) := by
  have hrule : Writes Stops rule.name.toList [.lower rule.name] := by
    cases rule <;> exact writes_lower rfl
  have hempty : Writes Stops "[]".toList [.mark "[", .mark "]"] :=
    writes_openList.append_of_anything (writes_closeList.mono fun _ _ => trivial)
  have hscan : Token.scan? "inference".toList = some (.lower "inference", []) := rfl
  have hname : Spells Token.isAtomic "inference" :=
    ⟨.lower "inference", Token.readable_of_scan? hscan rfl, rfl, rfl⟩
  -- the name of the inference with three arguments, each a text with its words
  let args : List (String × List Token) :=
    [(rule.name, [.lower rule.name]), ("[]", [.mark "[", .mark "]"]),
      ("[" ++ ", ".intercalate parents ++ "]",
        .mark "[" :: ([Token.mark ","].intercalate (parents.map fun p => [.ofSpelling p]) ++
          [.mark "]"]))]
  have hargs : ∀ a ∈ args, Writes Stops a.1.toList a.2 :=
    List.forall_mem_cons.2 ⟨hrule, List.forall_mem_cons.2 ⟨hempty,
      List.forall_mem_singleton.2 (writes_brackets h)⟩⟩
  have htext : (", inference(" ++ rule.name ++ ", [], [" ++ ", ".intercalate parents ++
      "])").toList =
        [',', ' '] ++ ("inference" ++ argumentText ", " (args.map Prod.fst)).toList := by
    simp [args, argumentText, String.toList_intercalate]
  rw [htext]
  exact writes_comma.append_of_anything (writes_application hname hargs)

/-! ## Statements -/

/-- The words of an annotated formula, whatever the words of the formula are. -/
def formulaWords (name : Token) (role : String) (body remark : List Token) : List Token :=
  .lower "cnf" :: .mark "(" :: name :: .mark "," :: .lower role :: .mark "," ::
    (body ++ (remark ++ [.mark ")", .fullStop]))

/-- The text is made of ASCII characters, and it is one statement of the given words. -/
structure IsStatement (text : String) (words : List Token) : Prop where
  ascii : ∀ c ∈ text.toList, isAscii c = true
  statement?_eq : statement? text.toList = some (words, [])

/-- The text is made of ASCII characters, and it is the item and nothing else. -/
structure Spelled (text : String) (i : Item) : Prop where
  ascii : ∀ c ∈ text.toList, isAscii c = true
  item?_eq : item? text.toList = some (i, [])

/-- The text of a statement is read as an item if its words are one, and nothing is left. -/
theorem IsStatement.item?_eq {text : String} {words : List Token} (h : IsStatement text words) :
    item? text.toList = (Item.parse? words).map fun i => (i, []) := by
  rw [item?, h.statement?_eq]
  show (Item.parse? words).bind _ = _
  rcases Item.parse? words with _ | i <;> rfl

/-- An annotated formula, where `remark` is what stands between the formula and the
closing parenthesis. -/
theorem isStatement_annotated {name role body remark : String} {ws us : List Token}
    (hname : Spells Token.isLabel name)
    (hrole : Token.scan? role.toList = some (.lower role, []))
    (hbody : Writes Stops body.toList ws) (hremark : Writes Stops remark.toList us)
    (hstops : ∀ rest, Stops rest → Stops (remark.toList ++ rest)) :
    IsStatement ("cnf(" ++ name ++ ", " ++ role ++ ", " ++ body ++ remark ++ ").")
      (formulaWords (.ofSpelling name) role ws us) := by
  -- the pieces are put together from the end of the text to its beginning
  have hend : Writes Anything (body.toList ++ (remark.toList ++ [')'])) (ws ++ (us ++ [.mark ")"])) :=
    hbody.append (hremark.append writes_close fun _ _ => rfl) fun rest _ => by
      rw [List.append_assoc]
      exact hstops _ rfl
  have hrest := (writes_lower hrole).append (writes_comma.append_of_anything hend) fun _ _ => rfl
  have hnamed := (writes_word hname).append (writes_comma.append_of_anything hrest) fun _ _ => rfl
  have hcnf : Writes Stops "cnf".toList [.lower "cnf"] := writes_lower rfl
  have hall := hcnf.append (writes_open.append_of_anything hnamed) fun _ _ => rfl
  have htext : ("cnf(" ++ name ++ ", " ++ role ++ ", " ++ body ++ remark ++ ").").toList =
      "cnf".toList ++ (['('] ++ (name.toList ++ ([',', ' '] ++ (role.toList ++ ([',', ' '] ++
        (body.toList ++ (remark.toList ++ [')']))))))) ++ ['.'] := by
    simp
  refine ⟨?_, ?_⟩
  · rw [htext]
    intro c hc
    rcases List.mem_append.1 hc with hc | hc
    · exact hall.ascii c hc
    · rw [List.mem_singleton.1 hc]
      rfl
  · rw [htext, hall.statement?_eq trivial, statement?_fullStop]
    simp [prepend, formulaWords]

/-- The parents are cited by words, an unnamed one by a word that stands for it. -/
theorem Clause.Printable.parents_spelled {c : Clause} (hc : c.Printable σ) {rule : Rule}
    {parents : List (Option String)} (hprovenance : c.provenance = .derived rule parents) :
    ∀ p ∈ parents.map fun p => p.getD "unknown", Spells Token.isLabel p := by
  refine List.forall_mem_map.2 fun p hp => ?_
  rcases p with _ | label
  · have hscan : Token.scan? "unknown".toList = some (.lower "unknown", []) := rfl
    exact ⟨_, Token.readable_of_scan? hscan rfl, rfl, rfl⟩
  · refine hc.labels label ?_
    rw [hprovenance]
    exact List.mem_filterMap.2 ⟨some label, hp, rfl⟩

/-- **An annotated clause is one statement**: an axiom with nothing behind it, or a lemma
that cites the inference it comes from. The words of its literals may be any. -/
theorem Clause.Printable.isStatement {c : Clause} (hc : c.Printable σ) (index : Nat)
    {ws : List Token} (hbody : Writes Stops (c.named σ).toList ws) :
    ∃ role us, Parser.IsRemark us ∧ IsStatement (c.annotated σ index)
      (formulaWords (.ofSpelling (c.writtenName index)) role ws us) := by
  have hname := hc.writtenName_spelled index
  -- a clause without a derivation is written in one way, with a name or without
  have haxiom : IsStatement ("cnf(" ++ c.writtenName index ++ ", axiom, " ++ c.named σ ++ ").")
      (formulaWords (.ofSpelling (c.writtenName index)) "axiom" ws []) := by
    have hrole : Token.scan? "axiom".toList = some (.lower "axiom", []) := rfl
    have htext : "cnf(" ++ c.writtenName index ++ ", axiom, " ++ c.named σ ++ ")." =
        "cnf(" ++ c.writtenName index ++ ", " ++ "axiom" ++ ", " ++ c.named σ ++ "" ++ ")." := by
      apply String.toList_inj.1
      simp
    rw [htext]
    exact isStatement_annotated hname hrole hbody .nil fun _ h => h
  rcases hprovenance : c.provenance with _ | label | ⟨rule, parents⟩
  · rw [Clause.annotated, hprovenance]
    exact ⟨"axiom", [], .none, haxiom⟩
  · rw [Clause.annotated, hprovenance]
    exact ⟨"axiom", [], .none, haxiom⟩
  · have hparents := hc.parents_spelled hprovenance
    have hrole : Token.scan? "lemma".toList = some (.lower "lemma", []) := rfl
    have htext : c.annotated σ index = "cnf(" ++ c.writtenName index ++ ", " ++ "lemma" ++ ", " ++
        c.named σ ++ (", inference(" ++ rule.name ++ ", [], [" ++
          ", ".intercalate (parents.map fun p => p.getD "unknown") ++ "])") ++ ")." := by
      rw [Clause.annotated, hprovenance]
      apply String.toList_inj.1
      simp
    rw [htext]
    exact ⟨"lemma", _, .source (isSource_inferenceWords rule hparents),
      isStatement_annotated hname hrole hbody (writes_inference rule hparents)
        fun _ _ => by simp [Stops, isStop]⟩

/-- A literal that is no negated equation is not written as one. -/
theorem Literal.expr_ne_negatedEquation {l : Literal}
    (h : l.negated = true → l.atom.sides? = none) (lhs rhs : Expr) :
    l.expr σ ≠ .negative (.equation lhs rhs) := by
  intro heq
  rw [Literal.expr] at heq
  split at heq
  · next hnegated =>
    rw [Atom.expr_of_sides?_eq_none (h hnegated)] at heq
    cases heq
  · cases heq

/-- **An annotated clause is spelled out** under its name, as an axiom or as a lemma. -/
theorem Clause.Printable.spelled_annotated (hσ : σ.WellFormed) {c : Clause} (hc : c.Printable σ)
    (hequations : ∀ l ∈ c.literals, l.negated = true → l.atom.sides? = none) (index : Nat) :
    Spelled (c.annotated σ index)
      (.clause (c.writtenName index) (c.literals.map (Literal.expr σ))) := by
  obtain ⟨-, hlabel, htext⟩ := (hc.writtenName_spelled index).ofSpelling
  obtain ⟨role, us, hremark, hstatement⟩ := hc.isStatement index (hc.writes_named hσ hequations)
  have hne : c.literals.map (Literal.expr σ) ≠ [] := by simpa using hc.nonempty
  have hparse := Item.parse?_statementWords hlabel role hne
    (List.forall_mem_map.2 fun l hl => Literal.Over.wellSpelled_expr hσ (hc.known l hl))
    (List.forall_mem_map.2 fun l hl => Literal.expr_ne_negatedEquation (hequations l hl)) hremark
  refine ⟨hstatement.ascii, ?_⟩
  rw [hstatement.item?_eq, formulaWords, ← statementWords, hparse, htext]
  rfl

/-! ## Documents -/

/-- An ASCII character is one byte, which is read as the same character. -/
theorem ofNat_toUInt8 {c : Char} (h : isAscii c = true) :
    Char.ofNat c.val.toUInt8.toNat = c := by
  have hle : c.toNat ≤ 126 := by
    rw [isAscii, decide_eq_true_eq] at h
    exact h
  have htoNat : c.val.toUInt8.toNat = c.toNat := by
    rw [UInt32.toNat_toUInt8]
    exact Nat.mod_eq_of_lt (Nat.lt_of_le_of_lt hle (by decide))
  rw [htoNat, Char.ofNat_toNat]

/-- The bytes of a text in ASCII are its characters. -/
theorem map_ofNat_utf8 {text : String} (h : ∀ c ∈ text.toList, isAscii c = true) :
    (utf8 text).map (fun b => Char.ofNat b.toNat) = text.toList := by
  rw [utf8]
  generalize text.toList = cs at h
  induction cs with
  | nil => rfl
  | cons c cs ih =>
    rw [List.forall_mem_cons] at h
    have hsize : c.utf8Size = 1 := by
      have hle := h.1
      rw [isAscii, decide_eq_true_eq] at hle
      exact Char.utf8Size_eq_one_iff.2 (UInt32.le_trans hle (by decide))
    rw [List.flatMap_cons, String.utf8EncodeChar_eq_singleton hsize, List.map_append, ih h.2,
      List.map_singleton, ofNat_toUInt8 h.1]
    rfl

/-- **One item.** A text that spells out an item is the document of that item, without a
fault. -/
theorem Spelled.ofBytes_eq {text : String} {i : Item} (h : Spelled text i) :
    Document.ofBytes (utf8 text) = ⟨[i], none⟩ := by
  have hitem : item? (skipGaps text.toList) = some (i, []) := by
    rw [item?_skipGaps, h.item?_eq]
  have hne : skipGaps text.toList ≠ [] := by
    intro hnil
    have hlength := length_of_item? hitem
    rw [hnil] at hlength
    exact Nat.lt_irrefl 0 hlength
  -- nothing stands behind the item
  have hend : ∀ start, Document.ofTextAt start [] = ⟨[], none⟩ := by
    intro start
    have hnil : skipGaps [] = [] :=
      List.eq_nil_of_length_eq_zero (Nat.le_zero.1 (length_skipGaps_le []))
    rw [Document.ofTextAt, if_pos hnil]
  rw [Document.ofBytes, map_ofNat_utf8 h.ascii, Document.ofText, Document.ofTextAt, if_neg hne]
  split
  · next hnone =>
    rw [hitem] at hnone
    cases hnone
  · next i' rest hsome =>
    rw [hitem] at hsome
    obtain ⟨rfl, rfl⟩ := Prod.mk.inj (Option.some.inj hsome)
    rw [hend]

end Clausal
