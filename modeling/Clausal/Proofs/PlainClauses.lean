/-
Plain clauses: those of which every word has a meaning. No reserved word stands in them for
a term or an atom, so they are made of variables, names with arguments, numbers, distinct
objects, equations and denied equations, and reading them never gives a complaint.

Every plain clause is parsed back, also with negated equations in it: a tilde belongs to
the left side of an equation only if that begins with two dollar signs, and then the clause
is not plain. Parentheses around the whole clause leave no trace (`Parser.clause_plainWords`).
-/
import Clausal.Proofs.Parsing

set_option autoImplicit false

namespace Clausal.Problem

/-! ## Plain literals -/

/-- No reserved word stands in the term. -/
inductive Expr.Plain : Expr → Prop where
  | var (name : String) : Plain (.var name)
  | apply {name : String} {args : List Expr} (args_plain : ∀ e ∈ args, Plain e) :
    Plain (.apply name args)
  | constant (spelling : String) : Plain (.constant spelling)

/-- No reserved name occurs in the atom. -/
inductive AtomExpr.Plain : AtomExpr → Prop where
  | plain {name : String} {args : List Expr} (args_plain : ∀ e ∈ args, e.Plain) :
    Plain (.plain name args)
  | equation {lhs rhs : Expr} (left : lhs.Plain) (right : rhs.Plain) : Plain (.equation lhs rhs)

/-- No reserved name occurs in the literal. -/
inductive LiteralExpr.Plain : LiteralExpr → Prop where
  | positive {a : AtomExpr} (atom : a.Plain) : Plain (.positive a)
  | negative {a : AtomExpr} (atom : a.Plain) : Plain (.negative a)
  | inequation {lhs rhs : Expr} (left : lhs.Plain) (right : rhs.Plain) :
    Plain (.inequation lhs rhs)

/-! ## Parsed with or without parentheses -/

namespace Parser

variable {fuel : Nat} {rest : List Token} {lhs rhs : Expr}

/-- Any other word is no system word. -/
theorem atSystemWord_of_ne {t : Token} (h : ∀ w, t ≠ .system w) (ts : List Token) :
    atSystemWord (t :: ts) = some (false, t :: ts) := by
  unfold atSystemWord
  split
  · next w _ heq => exact absurd (List.cons.inj heq).1 (h w)
  · rfl

/-- A plain term does not begin with two dollar signs. -/
theorem atSystemWord_words {e : Expr} (h : e.WellSpelled) (hplain : e.Plain) (ts : List Token) :
    atSystemWord (e.words ++ ts) = some (false, e.words ++ ts) := by
  have hword : ∀ {kind : Token → Bool} {s : String}, Spells kind s →
      (∀ w, kind (.system w) = false) → ∀ w, Token.ofSpelling s ≠ .system w := by
    intro kind s hs hkind w heq
    have := hs.ofSpelling.2.1
    rw [heq, hkind] at this
    cases this
  cases h with
  | var spelled => rfl
  | apply spelled _ =>
    rw [Expr.words_apply]
    exact atSystemWord_of_ne (hword spelled fun _ => rfl) _
  | constant spelled => exact atSystemWord_of_ne (hword spelled fun _ => rfl) _
  | reserved _ _ => cases hplain

/-- A negated equation of plain terms is parsed back: its left side does not begin with two
dollar signs, so the tilde is that of the equation. -/
theorem literal_negatedEquation (left : lhs.WellSpelled) (hplain : lhs.Plain)
    (right : rhs.WellSpelled) (hleft : lhs.words.length ≤ fuel) (hright : rhs.words.length ≤ fuel)
    (hrest : NotNext "(" rest) :
    literal fuel (.mark "~" :: (lhs.words ++ .mark "=" :: (rhs.words ++ rest))) =
      some (.negative (.equation lhs rhs), rest) := by
  have hlhs : expr fuel (lhs.words ++ .mark "=" :: (rhs.words ++ rest)) =
      some (lhs, .mark "=" :: (rhs.words ++ rest)) :=
    expr_words left hleft (notNext_cons (by decide))
  have hatom : negatedAtom fuel (lhs.words ++ .mark "=" :: (rhs.words ++ rest)) =
      some (.equation lhs rhs, rest) := by
    rw [negatedAtom, bind_of_eq (atSystemWord_words left hplain _), if_neg (by decide),
      bind_of_eq hlhs, equationOrPredication, bind_of_eq (accept_cons "=" _), if_pos rfl,
      map_of_eq (expr_words right hright hrest)]
  rw [literal, bind_of_eq (accept_cons "~" _), if_pos rfl, map_of_eq hatom]

/-- **Plain literals are parsed back**, negated equations among them. -/
theorem literal_plainWords {l : LiteralExpr} (h : l.WellSpelled) (hplain : l.Plain)
    (hfuel : l.words.length ≤ fuel) (hrest : EndsLiteral rest) :
    literal fuel (l.words ++ rest) = some (l, rest) := by
  by_cases hequation : ∃ lhs rhs, l = .negative (.equation lhs rhs)
  · obtain ⟨lhs, rhs, rfl⟩ := hequation
    have hsides : lhs.WellSpelled ∧ rhs.WellSpelled ∧ lhs.Plain := by
      rcases h with _ | ⟨_ | _ | ⟨left, right⟩⟩ | _
      rcases hplain with _ | ⟨_ | ⟨left_plain, _⟩⟩ | _
      exact ⟨left, right, left_plain⟩
    obtain ⟨left, right, left_plain⟩ := hsides
    simp only [LiteralExpr.words, AtomExpr.words, List.length_append, List.length_cons] at hfuel
    rw [LiteralExpr.words, AtomExpr.words, List.cons_append, List.append_assoc, List.cons_append]
    exact literal_negatedEquation left left_plain right (by omega) (by omega) hrest.1
  · exact literal_words h (fun lhs rhs heq => hequation ⟨lhs, rhs, heq⟩) hfuel hrest

/-- Plain literals with bars in between are parsed back. -/
theorem separated_plainWords {ls : List LiteralExpr} (hne : ls ≠ [])
    (h : ∀ l ∈ ls, l.WellSpelled) (hplain : ∀ l ∈ ls, l.Plain)
    (hfuel : (clauseWords ls).length ≤ fuel) (hrest : EndsLiteral rest)
    (hbar : NotNext "|" rest) :
    separated "|" (literal fuel) fuel (clauseWords ls ++ rest) = some (ls, rest) := by
  obtain ⟨hcount, hwords⟩ := intercalate_bounds hfuel (forall_literalWords_pos ls)
  rw [List.length_map] at hcount
  have hlist := separated_intercalate (f := id) endsLiteral_bar hne
    (fun l hl ts hts => literal_plainWords (h l hl) (hplain l hl)
      (hwords _ (List.mem_map_of_mem hl)) hts) hcount hrest hbar
  rwa [List.map_id] at hlist

/-- **Outer parentheses make no difference.** The words of a plain clause are parsed back as
its literals, and so are these words in parentheses. -/
theorem clause_plainWords {ls : List LiteralExpr} (hne : ls ≠ [])
    (h : ∀ l ∈ ls, l.WellSpelled) (hplain : ∀ l ∈ ls, l.Plain)
    (hfuel : (clauseWords ls).length ≤ fuel) (hrest : EndsLiteral rest)
    (hbar : NotNext "|" rest) :
    clause fuel (clauseWords ls ++ rest) = some (ls, rest) ∧
      clause fuel (.mark "(" :: (clauseWords ls ++ .mark ")" :: rest)) = some (ls, rest) := by
  constructor
  · have hopen : NotNext "(" (clauseWords ls ++ rest) := by
      refine notNext_intercalate (by simpa using hne) (fun w hw ts => ?_) rest
      obtain ⟨l, hl, rfl⟩ := List.mem_map.1 hw
      exact notNext_literalWords (h l hl) (by decide) ts
    rw [clause, bind_of_eq (accept_of_notNext hopen), if_neg (by decide)]
    exact separated_plainWords hne h hplain hfuel hrest hbar
  · have hclose : EndsLiteral (.mark ")" :: rest) ∧ NotNext "|" (.mark ")" :: rest) :=
      IsRemark.none.ends rest
    have hlist := separated_plainWords hne h hplain hfuel hclose.1 hclose.2
    rw [clause, bind_of_eq (accept_cons "(" _), if_pos rfl, bind_of_eq hlist,
      bind_of_eq (expect_cons ")" rest)]
    rfl

end Parser

end Clausal.Problem
