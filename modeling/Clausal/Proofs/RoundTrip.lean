/-
Printing and reading again. A clause of a session, written as an annotated formula by the
names of the session's signature, is read back as one clause: the same literals in the
same order, with the same function and predicate symbols, and only the variables have new
numbers (`Session.read_annotated`).

The text has been dealt with already, so what is left is the reading of an item. Two facts
carry it. A symbol is found under the number by which it was written, since the signature
is faithful; and different variables are written differently, since the number at the end
of the text tells them apart (`Signature.endNumber_variableText`). So after the variable
occurrences `ws` of a clause have been read, the new variables are those of `ws` in the
order of their first occurrence. This is the invariant `Follows`, and reading on extends
`ws` (`ReadsBack`).

A negated equation is not read back. It is written with parentheses around the equation,
and the grammar of clauses has no parentheses there.
-/
import Clausal.Proofs.NumberedText
import Clausal.Proofs.PrintedClauses
import Clausal.Proofs.Sessions
import Mathlib.Data.List.DropRight

set_option autoImplicit false

namespace Clausal

open Problem

variable {σ : Signature}

/-! ## Variables are written apart -/

/-- The number in the digits at the end of a text. -/
def endNumber (w : String) : Nat := Nat.ofDigitChars 10 (w.toList.rtakeWhile Char.isDigit) 0

/-- Whatever stands before a numeral, one character other than a digit sets it off. -/
theorem endNumber_eq {w : String} {front : List Char} {c : Char} {n : Nat}
    (hc : c.isDigit = false) (hw : w.toList = front ++ c :: (toString n).toList) :
    endNumber w = n := by
  have hdigits : ∀ d ∈ (toString n).toList.reverse, d.isDigit = true := fun _ hd =>
    isDigit_of_mem_toString (List.mem_reverse.1 hd)
  have hhalts : Halts Char.isDigit (c :: front.reverse) := hc
  -- seen from the end, the numeral is the run of digits in front
  have hnumeral : w.toList.rtakeWhile Char.isDigit = (toString n).toList := by
    rw [hw, List.rtakeWhile, List.reverse_append, List.reverse_cons, List.append_assoc,
      List.singleton_append, (takeWhile_append_of_halts hdigits hhalts).1, List.reverse_reverse]
  rw [endNumber, hnumeral, toList_toString, Nat.ofDigitChars_ten_toDigits]

/-- The text of a variable ends in its number, be it known or unknown: an underscore or the
letter of unknown variables comes before the numeral, so digits in the name do no harm. -/
theorem Signature.endNumber_variableText (σ : Signature) (x : Nat) :
    endNumber (σ.variableText x) = x := by
  rcases hname : σ.variableName? x with _ | name
  · have htext : (σ.variableText x).toList = [] ++ 'X' :: (toString x).toList := by
      simp [variableText, hname]
    exact endNumber_eq rfl htext
  · have htext : (σ.variableText x).toList = name.toList ++ '_' :: (toString x).toList := by
      simp [variableText, hname]
    exact endNumber_eq rfl htext

/-- **Different variables are written differently**, even by different signatures. -/
theorem Signature.variableText_inj {σ τ : Signature} {x y : Nat}
    (h : σ.variableText x = τ.variableText y) : x = y := by
  rw [← σ.endNumber_variableText x, h, τ.endNumber_variableText]

/-- A name that looks like the text of another variable, one that occurs twice, an empty one,
and a variable without a name. -/
example : [0, 1, 2, 3, 4].map (Signature.variableText ⟨#["X_1", "X", "", "X"], .empty, .empty⟩) =
    ["X_1_0", "X_1", "_2", "X_3", "X4"] := by decide +kernel

/-! ## The variables read so far -/

/-- The signature with the variables of the occurrences `ws` added to it under the names
by which they are written. -/
def Signature.reread (σ : Signature) (ws : List Nat) : Signature :=
  { σ with variableNames := σ.variableNames ++ (ws.eraseDups.map σ.variableText).toArray }

/-- Each variable gets one new number, however often it occurs. -/
theorem Signature.size_reread (σ : Signature) (ws : List Nat) :
    (σ.reread ws).variableNames.size = σ.variableNames.size + ws.eraseDups.length := by
  simp [Signature.reread]

/-- The scope in which a clause is read after its variable occurrences `ws`: just these
have been added, and each is found under its written name. -/
structure Follows (σ : Signature) (ws : List Nat) (s : Scope) : Prop where
  signature_eq : s.signature = σ.reread ws
  lookup_eq : ∀ x < σ.variableNames.size, s.bound.lookup (σ.variableText x) =
    (ws.eraseDups.idxOf? x).map (σ.variableNames.size + ·)

/-- Before the first occurrence nothing has been reread. -/
theorem follows_start (σ : Signature) : Follows σ [] ⟨σ, []⟩ :=
  ⟨by simp [Signature.reread], fun _ _ => rfl⟩

/-- A new member at the end is found there, and the others where they were. -/
theorem idxOf?_concat {vs : List Nat} {x : Nat} (h : x ∉ vs) (y : Nat) :
    (vs ++ [x]).idxOf? y = if y = x then some vs.length else vs.idxOf? y := by
  rw [idxOf?_append, List.idxOf?_singleton]
  by_cases hy : y = x
  · rw [if_pos hy, hy, List.idxOf?_eq_none_iff.2 h]
    simp
  · rw [if_neg hy, beq_false_of_ne fun heq => hy heq.symm]
    simp

/-- A variable that occurs again changes nothing. -/
theorem Follows.concat_of_mem {ws : List Nat} {s : Scope} (h : Follows σ ws s) {x : Nat}
    (hx : x ∈ ws) : Follows σ (ws ++ [x]) s := by
  refine ⟨?_, ?_⟩
  · rw [h.signature_eq, Signature.reread, Signature.reread, eraseDups_concat_of_mem hx]
  · rw [eraseDups_concat_of_mem hx]
    exact h.lookup_eq

/-- A variable that occurs for the first time is added behind the others. -/
theorem Follows.concat_of_not_mem {ws : List Nat} {s : Scope} (h : Follows σ ws s) {x : Nat}
    (hmem : x ∉ ws) : Follows σ (ws ++ [x]) ⟨(s.signature.addVariable (σ.variableText x)).2,
      s.bound ++ [(σ.variableText x, s.signature.variableNames.size)]⟩ := by
  have hnew : x ∉ ws.eraseDups := fun hin => hmem (List.mem_eraseDups.1 hin)
  refine ⟨?_, fun y hy => ?_⟩
  · simp [h.signature_eq, Signature.reread, Signature.addVariable, eraseDups_concat_of_not_mem hmem]
  -- the new variable has the next number, which is that of its place
  · have hsize : s.signature.variableNames.size = σ.variableNames.size + ws.eraseDups.length := by
      rw [h.signature_eq, σ.size_reread]
    rw [List.lookup_append, h.lookup_eq y hy, eraseDups_concat_of_not_mem hmem,
      idxOf?_concat hnew]
    by_cases hyx : y = x
    · rw [if_pos hyx, hyx, List.idxOf?_eq_none_iff.2 hnew, List.lookup_cons_self, hsize]
      rfl
    · -- the new name is the name of no other variable
      have hname : (σ.variableText y == σ.variableText x) = false :=
        beq_false_of_ne fun heq => hyx (Signature.variableText_inj heq)
      rw [if_neg hyx, List.lookup_cons, hname, List.lookup_nil, Option.or_none]

/-- A written variable is read as the variable that it has become. -/
theorem Follows.resolve {ws : List Nat} {s : Scope} (h : Follows σ ws s) {x : Nat}
    (hx : x < σ.variableNames.size) :
    ∃ s', s.resolve (σ.variableText x) =
      (.var (renumber σ.variableNames.size (ws ++ [x]).eraseDups x), s') ∧
        Follows σ (ws ++ [x]) s' := by
  have hlookup := h.lookup_eq x hx
  by_cases hmem : x ∈ ws
  · -- the variable has been bound at its first occurrence
    obtain ⟨k, -, hk, -⟩ := exists_idxOf? (List.mem_eraseDups.2 hmem)
    rw [hk, Option.map_some] at hlookup
    refine ⟨s, ?_, h.concat_of_mem hmem⟩
    rw [Scope.resolve, hlookup, eraseDups_concat_of_mem hmem, renumber_of_idxOf? hk]
  -- the first occurrence: the variable is bound now, to the last place
  · have hnew : x ∉ ws.eraseDups := fun hin => hmem (List.mem_eraseDups.1 hin)
    rw [List.idxOf?_eq_none_iff.2 hnew, Option.map_none] at hlookup
    have hlast : (ws ++ [x]).eraseDups.idxOf? x = some ws.eraseDups.length := by
      rw [eraseDups_concat_of_not_mem hmem, idxOf?_concat hnew, if_pos rfl]
    have hsize : s.signature.variableNames.size = σ.variableNames.size + ws.eraseDups.length := by
      rw [h.signature_eq, σ.size_reread]
    refine ⟨_, ?_, h.concat_of_not_mem hmem⟩
    rw [Scope.resolve, hlookup, renumber_of_idxOf? hlast, ← hsize]
    rfl

/-! ## Reading back -/

section

variable {α β : Type} {all vs us : List Nat} {a : α} {b : β} {m : InClause α}

/-- In a clause with the variable occurrences `all`, the computation returns `a` and takes
note of the occurrences `vs`, wherever in the clause these stand. -/
def ReadsBack (σ : Signature) (all : List Nat) (m : InClause α) (a : α) (vs : List Nat) : Prop :=
  ∀ ⦃ws : List Nat⦄ ⦃s : Scope⦄, ws ++ vs <+: all → Follows σ ws s →
    ∃ s', m.run s = (.ok a, s') ∧ Follows σ (ws ++ vs) s'

/-- Returning a value reads no variable. -/
theorem readsBack_pure (a : α) : ReadsBack σ all (pure a) a [] := by
  intro ws s _ hs
  rw [List.append_nil]
  exact ⟨s, rfl, hs⟩

/-- One after the other, with the variable occurrences of both. -/
theorem ReadsBack.bind {f : α → InClause β} (hm : ReadsBack σ all m a vs)
    (hf : ReadsBack σ all (f a) b us) : ReadsBack σ all (m >>= f) b (vs ++ us) := by
  intro ws s hall hs
  rw [← List.append_assoc] at hall ⊢
  obtain ⟨s₁, hrun₁, hs₁⟩ := hm ((List.prefix_append _ _).trans hall) hs
  obtain ⟨s₂, hrun₂, hs₂⟩ := hf hall hs₁
  refine ⟨s₂, ?_, hs₂⟩
  rw [run_bind, hrun₁]
  exact hrun₂

theorem ReadsBack.map (f : α → β) (hm : ReadsBack σ all m a vs) :
    ReadsBack σ all (f <$> m) (f a) vs := by
  have := hm.bind (f := fun a => pure (f a)) (readsBack_pure (f a))
  rwa [List.append_nil, bind_pure_comp] at this

/-- A computation that leaves the scope as it is. -/
theorem readsBack_modifyGet {f : Scope → α × Scope}
    (h : ∀ (ws : List Nat) (s : Scope), Follows σ ws s → f s = (a, s)) :
    ReadsBack σ all (modifyGet f) a [] := by
  intro ws s _ hs
  rw [List.append_nil]
  refine ⟨s, ?_, hs⟩
  show ((.ok (f s).1, (f s).2) : Except ReadError α × Scope) = _
  rw [h ws s hs]

end

/-- The renaming that reading a clause with these variable occurrences comes to. -/
def rereading (σ : Signature) (all : List Nat) (x : Nat) : Term :=
  .var (renumber σ.variableNames.size all.eraseDups x)

section

variable {all : List Nat}

/-- Reading the text of a variable gives the variable that stands for it. -/
theorem readsBack_resolve {x : Nat} (hx : x < σ.variableNames.size) :
    ReadsBack σ all (modifyGet (Scope.resolve (σ.variableText x))) (rereading σ all x) [x] := by
  intro ws s hall hs
  obtain ⟨s', hresolve, hs'⟩ := hs.resolve hx
  obtain ⟨us, rfl⟩ := hall
  refine ⟨s', ?_, hs'⟩
  -- what comes later in the clause does not change the number
  have hmem : x ∈ ws ++ [x] := List.mem_append_right ws (List.mem_singleton_self x)
  have hnumber : renumber σ.variableNames.size (ws ++ [x] ++ us).eraseDups x =
      renumber σ.variableNames.size (ws ++ [x]).eraseDups x := by
    obtain ⟨k, -, hk, -⟩ := exists_idxOf? (List.mem_eraseDups.2 hmem)
    have hk' := (idxOf?_eraseDups_append (m := us) hmem).trans hk
    rw [renumber_of_idxOf? hk, renumber_of_idxOf? hk']
  show ((.ok (Scope.resolve _ s).1, (Scope.resolve _ s).2) : Except ReadError Term × Scope) = _
  rw [hresolve, rereading, hnumber]

/-- A function symbol is found under the number by which it was written. -/
theorem readsBack_apply (hσ : σ.WellFormed) {f : Nat} {name : String} {args : List Term}
    (hf : σ.functionSymbol? f = some ⟨name, args.length⟩) :
    ReadsBack σ all (modifyGet (Scope.apply name args)) (.app f args) [] := by
  refine readsBack_modifyGet fun ws s hs => ?_
  have hintern : s.signature.internFunction ⟨name, args.length⟩ = (f, s.signature) := by
    rw [hs.signature_eq]
    exact Signature.internFunction_of_functionSymbol? (σ := σ.reread ws) hσ.functions_faithful hf
  rw [Scope.apply, hintern]

/-- A known predicate symbol has its old number, so the atom is the one that was written. -/
theorem readsBack_atom (hσ : σ.WellFormed) {p : Nat} {name : String} {args : List Term}
    (hp : σ.predicateSymbol? p = some ⟨name, args.length⟩) :
    ReadsBack σ all (modifyGet (Scope.atom name args)) ⟨p, args⟩ [] := by
  refine readsBack_modifyGet fun ws s hs => ?_
  have hintern : s.signature.internPredicate ⟨name, args.length⟩ = (p, s.signature) := by
    rw [hs.signature_eq]
    exact Signature.internPredicate_of_predicateSymbol? (σ := σ.reread ws) hσ.predicates_faithful hp
  rw [Scope.atom, hintern]

/-- The arguments are read back one after the other. -/
theorem readsBack_readList {ts : List Term}
    (h : ∀ t ∈ ts, ReadsBack σ all (t.expr σ).read (t.subst (rereading σ all)) t.vars) :
    ReadsBack σ all (Expr.readList (ts.map (Term.expr σ))) (ts.map (Term.subst (rereading σ all)))
      (ts.flatMap Term.vars) := by
  induction ts with
  | nil => exact readsBack_pure []
  | cons t ts ih =>
    rw [List.forall_mem_cons] at h
    have hrest := (ih h.2).bind (f := fun ts' => pure (t.subst (rereading σ all) :: ts'))
      (readsBack_pure _)
    rw [List.append_nil] at hrest
    exact h.1.bind (f := fun t' => Expr.readList _ >>= fun ts' => pure (t' :: ts')) hrest

/-- **Terms are read back**, with new variables. -/
theorem Term.Over.readsBack (hσ : σ.WellFormed) {t : Term} (ht : t.Over σ) :
    ReadsBack σ all (t.expr σ).read (t.subst (rereading σ all)) t.vars := by
  -- along the term, from its arguments to its symbol
  induction ht with
  | var known => exact readsBack_resolve known
  | @app f name args known args_over ih =>
    have hlength : (args.map (Term.subst (rereading σ all))).length = args.length :=
      List.length_map ..
    have happly : ReadsBack σ all _ _ _ := readsBack_apply hσ (hlength.symm ▸ known)
    rw [subst_app, vars_app]
    rcases hσ.isFunction known with hname | ⟨hname, harity⟩
    · rw [expr_app_of_isAtomic known hname]
      have := (readsBack_readList ih).bind (f := fun ts => modifyGet (Scope.apply name ts)) happly
      rwa [List.append_nil] at this
    · -- a number or a distinct object is read without a list of arguments
      obtain rfl : args = [] := List.eq_nil_of_length_eq_zero harity
      rw [expr_app_of_isConstant known hname]
      exact happly

/-- **Atoms are read back**, with new variables. -/
theorem Atom.Over.readsBack (hσ : σ.WellFormed) {a : Atom} (ha : a.Over σ) :
    ReadsBack σ all (a.expr σ).read (a.subst (rereading σ all)) a.vars := by
  rw [Atom.subst, Term.substList_eq]
  -- an equation is read from its sides, and any other atom from a list of arguments
  rcases ha.cases hσ with ⟨s, t, rfl, hs, ht⟩ | ⟨hsides, name, hname, -⟩
  · have hright : ReadsBack σ all _ _ _ := (ht.readsBack hσ).bind
      (f := fun t' => pure (Atom.equation (s.subst (rereading σ all)) t')) (readsBack_pure _)
    exact (hs.readsBack hσ).bind
      (f := fun s' => (t.expr σ).read >>= fun t' => pure (Atom.equation s' t')) hright
  · have hlength : (a.args.map (Term.subst (rereading σ all))).length = a.args.length :=
      List.length_map ..
    have hatom : ReadsBack σ all _ _ _ := readsBack_atom hσ (hlength.symm ▸ hname)
    have hargs : ReadsBack σ all _ _ _ :=
      readsBack_readList fun t ht => (ha.args_over t ht).readsBack hσ
    have := hargs.bind (f := fun ts => modifyGet (Scope.atom name ts)) hatom
    rw [List.append_nil] at this
    rw [Atom.expr_of_sides?_eq_none hsides, σ.predicateText_of_eq_some hname]
    exact this

/-- **Literals are read back**, with new variables. -/
theorem Literal.Over.readsBack (hσ : σ.WellFormed) {l : Literal} (hl : l.Over σ) :
    ReadsBack σ all (l.expr σ).read (l.subst (rereading σ all)) l.vars := by
  have hatom : ReadsBack σ all _ _ _ := Atom.Over.readsBack hσ hl
  rw [Literal.expr, Literal.subst]
  rcases l.negated with _ | _
  · exact hatom.map Literal.pos
  · exact hatom.map Literal.neg

/-- The literals of a clause are read back in one scope, so equal variables stay equal. -/
theorem readsBack_readLiterals (hσ : σ.WellFormed) {ls : List Literal} (h : ∀ l ∈ ls, l.Over σ) :
    ReadsBack σ all (readLiterals (ls.map (Literal.expr σ)))
      (ls.map (Literal.subst (rereading σ all))) (ls.flatMap Literal.vars) := by
  induction ls with
  | nil => exact readsBack_pure []
  | cons l ls ih =>
    rw [List.forall_mem_cons] at h
    have hrest := (ih h.2).bind (f := fun ms => pure (l.subst (rereading σ all) :: ms))
      (readsBack_pure _)
    rw [List.append_nil] at hrest
    exact (Literal.Over.readsBack hσ h.1).bind
      (f := fun m => readLiterals _ >>= fun ms => pure (m :: ms)) hrest

end

/-! ## Clauses -/

/-- A printable clause is read back with its literals in order, and nothing else happens
to the signature than that its variables are added. -/
theorem Clause.Printable.readClause_exprs (hσ : σ.WellFormed) {c : Clause} (hc : c.Printable σ)
    (name : String) :
    (readClause name (c.literals.map (Literal.expr σ))).run σ =
      (.ok ⟨c.literals.map (Literal.subst (rereading σ c.vars)), .named name⟩,
        σ.reread c.vars) := by
  have hread : ReadsBack σ c.vars _ _ _ := readsBack_readLiterals hσ hc.known
  obtain ⟨s, hrun, hs⟩ := hread (List.prefix_refl _) (follows_start σ)
  -- the renaming merges no literals, so making a clause of them changes nothing
  have hnodup : (c.literals.map (Literal.subst (rereading σ c.vars))).Nodup :=
    nodup_map_subst_var (renumber_injective _ _) hc.nodup
  have hmake : Clause.make (c.literals.map (Literal.subst (rereading σ c.vars))) (.named name) =
      ⟨c.literals.map (Literal.subst (rereading σ c.vars)), .named name⟩ :=
    Clause.make_of_nodup hnodup _
  have hsignature : s.signature = σ.reread c.vars := hs.signature_eq
  rw [← hmake, ← hsignature]
  show (((readLiterals _).run ⟨σ, []⟩).1.map _, ((readLiterals _).run ⟨σ, []⟩).2.signature) = _
  rw [hrun]
  rfl

/-- A document of one clause is read as that clause. -/
theorem run_read_clause (included : String → Reading (List Clause)) (directory : String)
    {name : String} {ls : List LiteralExpr} {τ : Signature} {d : Clause}
    (h : (readClause name ls).run σ = (.ok d, τ)) :
    (Document.read included directory ⟨[.clause name ls], none⟩).run σ = (.ok [d], τ) := by
  have hitem : (Item.read included directory (.clause name ls)).run σ = (.ok [d], τ) := by
    rw [Item.read, run_bind, h]
    rfl
  have hitems : (readItems included directory [.clause name ls]).run σ = (.ok [d], τ) := by
    rw [readItems, run_bind, hitem]
    rfl
  rw [Document.read, run_bind, hitems]
  rfl

namespace Session

/-- **Printing and reading again.** The text of a clause of the session that has no negated
equation is read as one clause, under the name of the first, and a renaming of variables
takes the literals of the one to those of the other. The signature has as many new
variables as the clause has, and nothing else is new in it. -/
theorem read_annotated {s : Session} (hs : s.Reachable) {c : Clause} (hc : c ∈ s.clauses)
    (hequations : ∀ l ∈ c.literals, l.negated = true → l.atom.sides? = none)
    (files : FileSystem) (index : Nat) :
    ∃ (d : Clause) (ρ : Nat → Nat) (names : List String),
      (fromText files (c.annotated s.signature index)).run s.signature =
          (.ok [d], { s.signature with
            variableNames := s.signature.variableNames ++ names.toArray }) ∧
        d.label? = some (c.label?.getD ("derived_" ++ toString index)) ∧
        Function.Injective ρ ∧ d.literals = c.literals.map (Literal.subst fun x => .var (ρ x)) ∧
        names.length = c.distinctVars.length := by
  obtain ⟨hσ, hclauses⟩ := sound_of_reachable hs
  have hprintable := hclauses c hc
  let d : Clause := ⟨c.literals.map (Literal.subst (rereading s.signature c.vars)),
    .named (c.writtenName index)⟩
  refine ⟨d, renumber s.signature.variableNames.size c.distinctVars,
    c.distinctVars.map s.signature.variableText, ?_, rfl, renumber_injective _ _, rfl,
    List.length_map ..⟩
  rw [fromText, (hprintable.spelled_annotated hσ hequations index).ofBytes_eq]
  exact run_read_clause _ _ (hprintable.readClause_exprs hσ _)

/-- A paramodulant of two clauses that have been read, over a quoted name, a fraction and a
distinct object, one of its premises being named by a quoted numeral. -/
theorem read_annotated_paramodulant :
    ∃ (s : Session) (c : Clause), s.Reachable ∧ c ∈ s.clauses ∧
      (∀ l ∈ c.literals, l.negated = true → l.atom.sides? = none) ∧
      c.annotated s.signature 3 = "cnf(derived_3, lemma, p('b c', \"o\") | ~p(Y_1, 1/2), " ++
        "inference(paramodulation, [], [a, '1']))." ∧
      ∃ (d : Clause) (ρ : Nat → Nat) (names : List String),
        (fromText .empty (c.annotated s.signature 3)).run s.signature =
            (.ok [d], { s.signature with
              variableNames := s.signature.variableNames ++ names.toArray }) ∧
          d.label? = some (c.label?.getD ("derived_" ++ toString 3)) ∧
          Function.Injective ρ ∧ d.literals = c.literals.map (Literal.subst fun x => .var (ρ x)) ∧
          names.length = c.distinctVars.length := by
  let text := "cnf(a, axiom, f(X) = 'b c' | ~p(X, 1/2)). cnf('1', axiom, p(f(Y), \"o\"))."
  let one : Clause := ⟨[.pos (.equation (.app 0 [.var 0]) (.app 1 [])),
    .neg ⟨1, [.var 0, .app 2 []]⟩], .named "a"⟩
  let two : Clause := ⟨[.pos ⟨1, [.app 0 [.var 1], .app 3 []]⟩], .named "'1'"⟩
  let c : Clause := ⟨[.pos ⟨1, [.app 1 [], .app 3 []]⟩, .neg ⟨1, [.var 1, .app 2 []]⟩],
    .derived .paramodulation [some "a", some "'1'"]⟩
  let s : Session := new.read (fromText .empty text)
  have hclauses : s.clauses = [one, two] := by decide +kernel
  obtain ⟨rs, hrs, hc⟩ : ∃ rs, paramodulants [one] two = .ok rs ∧ c ∈ rs := by
    refine ⟨((paramodulants [one] two).toOption.getD []), ?_, ?_⟩ <;> decide +kernel
  have hone : ∀ p ∈ [one], p ∈ s.clauses := by
    rw [hclauses]
    simp
  have htwo : two ∈ s.clauses := by
    rw [hclauses]
    simp
  -- a text is read, and then the two clauses of it are paramodulated
  have hs : Reachable ⟨s.signature, s.clauses ++ rs⟩ :=
    .tail (.single (.readText new .empty text)) (.paramodulants hone htwo hrs)
  have hmem : c ∈ s.clauses ++ rs := List.mem_append_right _ hc
  have hequations : ∀ l ∈ c.literals, l.negated = true → l.atom.sides? = none := by decide
  have htext : c.annotated s.signature 3 =
      "cnf(derived_3, lemma, p('b c', \"o\") | ~p(Y_1, 1/2), " ++
        "inference(paramodulation, [], [a, '1']))." := by decide +kernel
  exact ⟨_, c, hs, hmem, hequations, htext, read_annotated hs hmem hequations .empty 3⟩

end Session

end Clausal
