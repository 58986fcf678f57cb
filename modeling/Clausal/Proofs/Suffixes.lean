/-
Parsers take words off the front. What a parser leaves is a final part of the words that it
was given (`TakesFront`); this is said once for every way to put parsers together, and then
goes through the grammars of clauses, formulas, types and annotations without a look at what
they accept.

It is used for how an item ends. The last thing that every parser of items does is to expect
a closing parenthesis and a full stop, and an item takes all words of its statement. So these
two are the last words of every statement that is an item (`Item.closed_of_parse?`).
-/
import Clausal.Proofs.Parsing

set_option autoImplicit false

namespace Clausal.Problem

/-- The last two words are a closing parenthesis and a full stop. -/
def Closed (words : List Token) : Prop := ∃ front, words = front ++ [.mark ")", .fullStop]

namespace Parser

variable {α β : Type}

/-- What the parser leaves is a final part of what it was given. -/
def TakesFront (p : Parser α) : Prop :=
  ∀ ⦃ts : List Token⦄ ⦃a : α⦄ ⦃rest : List Token⦄, p ts = some (a, rest) → rest <:+ ts

variable {p q : Parser α}

/-! ## Putting parsers together -/

/-- A result without reading takes nothing. -/
theorem takesFront_pure (a : α) : TakesFront (pure a) := by
  intro ts b rest hrun
  cases hrun
  exact List.suffix_rfl

theorem takesFront_failure : TakesFront (failure : Parser α) := fun _ _ _ hrun => nomatch hrun

/-- One parser after another: the second takes from what the first has left. -/
theorem TakesFront.bind {f : α → Parser β} (hp : TakesFront p) (hf : ∀ a, TakesFront (f a)) :
    TakesFront (p >>= f) := by
  intro ts b rest hrun
  obtain ⟨a, ts', hrun, hrun'⟩ := bind_eq_some_iff.1 hrun
  exact (hf a hrun').trans (hp hrun)

theorem TakesFront.map (hp : TakesFront p) (f : α → β) : TakesFront (f <$> p) :=
  hp.bind fun a => takesFront_pure (f a)

theorem TakesFront.discard (hp : TakesFront p) : TakesFront (discard p) := hp.map fun _ => ()

/-- A choice of two parsers, settled before any word is read. -/
theorem takesFront_ite {c : Prop} [Decidable c] (hp : TakesFront p) (hq : TakesFront q) :
    TakesFront (if c then p else q) := by
  split
  · exact hp
  · exact hq

/-- The second parser starts from where the first one started. -/
theorem TakesFront.orElse (hp : TakesFront p) (hq : TakesFront q) : TakesFront (p <|> q) := by
  intro ts a rest hrun
  have hrun : (p ts).or (q ts) = some (a, rest) := by
    rw [← hrun]
    show _ = (p ts <|> q ts)
    rcases p ts with _ | _ <;> rfl
  rcases Option.or_eq_some_iff.1 hrun with hrun | ⟨-, hrun⟩
  · exact hp hrun
  · exact hq hrun

theorem takesFront_next : TakesFront next := by
  intro ts t rest hrun
  match ts, hrun with
  | t :: ts, rfl => exact List.suffix_cons t ts

/-- Looking at the words takes none. -/
theorem takesFront_get : TakesFront get := by
  intro ts a rest hrun
  cases hrun
  exact List.suffix_rfl

/-- A mark that has to come next is taken. -/
theorem takesFront_expect (m : String) : TakesFront (expect m) := by
  intro ts _ rest hrun
  match ts, hrun with
  | t :: ts, hrun =>
    rw [expect] at hrun
    split at hrun <;> cases hrun
    exact List.suffix_cons _ _

/-- A mark that may come next is taken if it does. -/
theorem takesFront_accept (m : String) : TakesFront (accept m) := by
  intro ts _ rest hrun
  match ts, hrun with
  | [], hrun =>
    cases hrun
    exact List.suffix_rfl
  | t :: ts, hrun =>
    rw [accept] at hrun
    split at hrun <;> cases hrun
    · exact List.suffix_cons _ _
    · exact List.suffix_rfl

theorem takesFront_acceptAny (ms : List String) : TakesFront (acceptAny ms) := by
  intro ts _ rest hrun
  unfold acceptAny at hrun
  split at hrun
  · split at hrun <;> cases hrun
    · exact List.suffix_cons _ _
    · exact List.suffix_rfl
  · cases hrun
    exact List.suffix_rfl

/-- Asking for the kind of the next word takes nothing. -/
theorem takesFront_atSystemWord : TakesFront atSystemWord := by
  intro ts _ rest hrun
  unfold atSystemWord at hrun
  split at hrun <;> cases hrun <;> exact List.suffix_rfl

theorem takesFront_require (condition : α → Bool) (a : α) : TakesFront (require condition a) :=
  takesFront_ite (takesFront_pure ()) takesFront_failure

/-- A parser whose result has to meet a condition leaves what it leaves without the condition. -/
theorem TakesFront.require (hp : TakesFront p) (condition : α → Bool) :
    TakesFront (p >>= require condition) :=
  hp.bind fun a => takesFront_require condition a

/-- A word, and whatever is done with it. -/
theorem takesFront_next_bind {f : Token → Parser β} (hf : ∀ t, TakesFront (f t)) :
    TakesFront (next >>= f) :=
  takesFront_next.bind hf

/-- A mark that may come next decides which way to go on. -/
theorem takesFront_accept_bind (m : String) {f : Bool → Parser β} (hf : ∀ b, TakesFront (f b)) :
    TakesFront (accept m >>= f) :=
  (takesFront_accept m).bind hf

/-- Parts with a mark between them, by induction on the fuel, which bounds the number of
parts. -/
theorem takesFront_separated (m : String) (hp : TakesFront p) (fuel : Nat) :
    TakesFront (separated m p fuel) := by
  induction fuel with
  | zero => exact takesFront_failure
  | succ fuel ih =>
    -- after one part, the mark decides whether there is another
    refine hp.bind fun a => takesFront_accept_bind m fun more => takesFront_ite ?_ ?_
    · exact ih.bind fun as => takesFront_pure (a :: as)
    · exact takesFront_pure [a]

/-- Arguments in parentheses, or none at all. -/
theorem takesFront_arguments (hp : TakesFront p) (fuel : Nat) :
    TakesFront (arguments p fuel) := by
  refine takesFront_accept_bind "(" fun more => takesFront_ite ?_ (takesFront_pure [])
  refine (takesFront_separated "," hp fuel).bind fun as => ?_
  exact (takesFront_expect ")").bind fun _ => takesFront_pure as

/-- Bound variables in brackets, and the colon behind them. -/
theorem takesFront_binder {v : Parser Unit} (hv : TakesFront v) (fuel : Nat) :
    TakesFront (binder v fuel) :=
  (takesFront_expect "[").bind fun _ => (takesFront_separated "," hv fuel).discard.bind fun _ =>
    (takesFront_expect "]").bind fun _ => takesFront_expect ":"

/-- The rest of a connection: more parts with the same sign, a second part, or nothing. -/
theorem takesFront_connection {part : Parser Unit} (hpart : TakesFront part) (fuel : Nat) :
    TakesFront (connection part fuel) := by
  -- the sign behind the first part says what may come next
  refine takesFront_accept_bind "|" fun bar => takesFront_ite
    (takesFront_separated "|" hpart fuel).discard ?_
  refine takesFront_accept_bind "&" fun ampersand => takesFront_ite
    (takesFront_separated "&" hpart fuel).discard ?_
  exact (takesFront_acceptAny _).bind fun binary => takesFront_ite hpart (takesFront_pure ())

/-! ## Clauses and formulas -/

/-- Terms. The induction on the fuel follows the nesting of arguments. -/
theorem takesFront_expr (fuel : Nat) : TakesFront (expr fuel) := by
  induction fuel with
  | zero => exact takesFront_failure
  | succ fuel ih =>
    refine takesFront_next_bind fun t => ?_
    cases t with
    | upper x => exact takesFront_pure _
    | lower f | quoted f => exact (takesFront_arguments ih fuel).map _
    | integer s | number s | object s => exact takesFront_pure _
    | defined d | system d => exact (takesFront_arguments ih fuel).map _
    | mark m => exact takesFront_failure

/-- An expression that is to be an atom has been read already. -/
theorem takesFront_predication (e : Expr) : TakesFront (predication e) := by
  cases e with
  | apply p args | reserved p args => exact takesFront_pure _
  | var x | constant s => exact takesFront_failure

/-- The left side of an equation, or an atom, once the expression has been read. -/
theorem takesFront_equationOrPredication (fuel : Nat) (e : Expr) :
    TakesFront (equationOrPredication fuel e) :=
  takesFront_accept_bind "=" fun _ =>
    takesFront_ite ((takesFront_expr fuel).map _) (takesFront_predication e)

/-- What may stand behind a tilde. -/
theorem takesFront_negatedAtom (fuel : Nat) : TakesFront (negatedAtom fuel) :=
  takesFront_atSystemWord.bind fun _ => takesFront_ite
    ((takesFront_expr fuel).bind takesFront_predication)
    ((takesFront_expr fuel).bind (takesFront_equationOrPredication fuel))

/-- Literals, with a tilde, with an inequality, or with neither. -/
theorem takesFront_literal (fuel : Nat) : TakesFront (literal fuel) := by
  refine takesFront_accept_bind "~" fun negative => takesFront_ite
    ((takesFront_negatedAtom fuel).map _) ?_
  refine (takesFront_expr fuel).bind fun e => takesFront_accept_bind "!=" fun denied => ?_
  exact takesFront_ite ((takesFront_expr fuel).map _)
    ((takesFront_equationOrPredication fuel e).map _)

/-- Disjunctions of literals, in parentheses or without. -/
theorem takesFront_clause (fuel : Nat) : TakesFront (clause fuel) := by
  have hliterals := takesFront_separated "|" (takesFront_literal fuel) fuel
  refine takesFront_accept_bind "(" fun enclosed => takesFront_ite ?_ hliterals
  exact hliterals.bind fun ls => (takesFront_expect ")").bind fun _ => takesFront_pure ls

theorem takesFront_variableName : TakesFront variableName := by
  refine takesFront_next_bind fun t => ?_
  cases t with
  | upper x => exact takesFront_pure ()
  | _ => exact takesFront_failure

theorem takesFront_atomic (fuel : Nat) : TakesFront (atomic fuel) := by
  refine takesFront_atSystemWord.bind fun system => (takesFront_expr fuel).bind fun e => ?_
  refine takesFront_accept_bind "!=" fun denied => takesFront_ite
    (takesFront_expr fuel).discard ?_
  exact takesFront_ite (takesFront_predication e).discard
    (takesFront_equationOrPredication fuel e).discard

/-- Parts of formulas. The induction on the fuel follows the nesting of formulas. -/
theorem takesFront_formulaPart (fuel : Nat) : TakesFront (formulaPart fuel) := by
  induction fuel with
  | zero => exact takesFront_failure
  | succ fuel ih =>
    refine takesFront_accept_bind "~" fun negation => takesFront_ite ih ?_
    refine (takesFront_acceptAny _).bind fun quantifier => takesFront_ite ?_ ?_
    · exact (takesFront_binder takesFront_variableName fuel).bind fun _ => ih
    · refine takesFront_accept_bind "(" fun enclosed => takesFront_ite ?_
        (takesFront_atomic fuel)
      exact ih.bind fun _ => (takesFront_connection ih fuel).bind fun _ => takesFront_expect ")"

/-- A part and what it is connected with. -/
theorem takesFront_formula (fuel : Nat) : TakesFront (formula fuel) :=
  (takesFront_formulaPart fuel).bind fun _ =>
    takesFront_connection (takesFront_formulaPart fuel) fuel

/-! ## Types and typed formulas -/

section

variable {simple : Parser TypeShape} {inner part : Parser Bool}

/-- A bound variable with or without its type. -/
theorem takesFront_typedVariable (hsimple : TakesFront simple) :
    TakesFront (typedVariable simple) := by
  refine takesFront_next_bind fun t => ?_
  cases t with
  | upper x =>
    exact takesFront_accept_bind ":" fun typed => takesFront_ite (hsimple.require _)
      (takesFront_pure ())
  | _ => exact takesFront_failure

/-- A type behind quantified type variables, which may follow each other. -/
theorem takesFront_quantifiedType (hsimple : TakesFront simple) (fuel : Nat) :
    TakesFront (quantifiedType simple fuel) := by
  induction fuel with
  | zero => exact takesFront_failure
  | succ fuel ih =>
    refine (takesFront_binder (takesFront_typedVariable hsimple) fuel).bind fun _ => ?_
    exact takesFront_accept_bind "!>" fun more => takesFront_ite ih (hsimple.require _)

/-- Types with an arrow, a product or quantifiers. -/
theorem takesFront_compoundType (hsimple : TakesFront simple) (fuel : Nat) :
    TakesFront (compoundType simple fuel) := by
  refine takesFront_accept_bind "!>" fun quantified => takesFront_ite ?_ ?_
  · exact (takesFront_quantifiedType hsimple fuel).bind fun _ => takesFront_pure _
  · refine hsimple.bind fun s => takesFront_accept_bind ">" fun mapping => takesFront_ite ?_ ?_
    · exact (takesFront_require _ s).bind fun _ => (hsimple.require _).bind fun _ =>
        takesFront_pure _
    · refine takesFront_accept_bind "*" fun product => takesFront_ite ?_ (takesFront_pure s)
      exact (takesFront_require _ s).bind fun _ =>
        (takesFront_separated "*" (hsimple.require _) fuel).discard.bind fun _ =>
          takesFront_pure _

/-- Types that need no parentheses, or have them. A type may be an argument of another, so this
is by induction on the fuel. -/
theorem takesFront_simpleType (fuel : Nat) : TakesFront (simpleType fuel) := by
  induction fuel with
  | zero => exact takesFront_failure
  | succ fuel ih =>
    refine takesFront_next_bind fun t => ?_
    split
    · exact takesFront_pure _
    · exact takesFront_pure _
    · exact (takesFront_arguments (ih.require _) fuel).discard.bind fun _ => takesFront_pure _
    · exact (takesFront_arguments (ih.require _) fuel).discard.bind fun _ => takesFront_pure _
    · exact (takesFront_compoundType ih fuel).bind fun s => (takesFront_expect ")").bind fun _ =>
        takesFront_pure _
    · exact takesFront_failure

/-- A symbol with its type, in any number of parentheses. -/
theorem takesFront_typing (fuel : Nat) : TakesFront (typing fuel) := by
  have htype : ∀ n, TakesFront
      (expect ":" >>= fun _ => compoundType (simpleType n) n >>= require TypeShape.isWhole) :=
    fun n => (takesFront_expect ":").bind fun _ =>
      (takesFront_compoundType (takesFront_simpleType n) n).require _
  induction fuel with
  | zero => exact takesFront_failure
  | succ fuel ih =>
    refine takesFront_next_bind fun t => ?_
    split
    · exact ih.bind fun _ => takesFront_expect ")"
    · exact htype fuel
    · exact htype fuel
    · exact htype fuel
    · exact takesFront_failure

/-- Terms of typed formulas, whose arguments may be formulas. -/
theorem takesFront_typedTerm (hinner : TakesFront inner) (fuel : Nat) :
    TakesFront (typedTerm inner fuel) := by
  have harguments : TakesFront (discard (arguments inner fuel) >>= fun _ => pure true) :=
    (takesFront_arguments hinner fuel).discard.bind fun _ => takesFront_pure true
  refine takesFront_next_bind fun t => ?_
  -- one case for each kind of word, most of which take arguments or nothing
  split
  · exact takesFront_pure true
  · exact harguments
  · exact harguments
  · exact harguments
  · exact harguments
  · exact takesFront_pure false
  · exact takesFront_pure false
  · exact takesFront_pure false
  · exact (hinner.require _).bind fun _ => (takesFront_expect ")").bind fun _ =>
      takesFront_pure true
  · exact takesFront_failure

/-- A part of a typed formula with what it is connected with. -/
theorem takesFront_typedPhrase (hpart : TakesFront part) (fuel : Nat) :
    TakesFront (typedPhrase part fuel) := by
  refine hpart.bind fun isFormula => takesFront_ite ?_ (takesFront_pure false)
  exact (takesFront_connection (hpart.require _) fuel).bind fun _ => takesFront_pure true

end

/-- Parts of typed formulas. The induction on the fuel is for both positions of a part, right
behind a negation and elsewhere. -/
theorem takesFront_typedPart (negated : Bool) (fuel : Nat) :
    TakesFront (typedPart negated fuel) := by
  induction fuel generalizing negated with
  | zero => exact takesFront_failure
  | succ fuel ih =>
    -- terms hold phrases again, which are no operands of a negation
    have hterm := takesFront_typedTerm (takesFront_typedPhrase (ih false) fuel) fuel
    refine takesFront_accept_bind "~" fun negation => takesFront_ite ?_ ?_
    · exact ((ih true).require _).bind fun _ => takesFront_pure true
    · refine (takesFront_acceptAny _).bind fun quantifier => takesFront_ite ?_ ?_
      · exact (takesFront_binder (takesFront_typedVariable (takesFront_simpleType fuel)) fuel).bind
          fun _ => ((ih false).require _).bind fun _ => takesFront_pure true
      · refine hterm.bind fun isFormula => takesFront_ite (takesFront_pure isFormula) ?_
        exact (takesFront_acceptAny _).bind fun equation => takesFront_ite
          (hterm.discard.bind fun _ => takesFront_pure true) (takesFront_pure isFormula)

/-- A typed formula is a typing or a phrase. -/
theorem takesFront_typedFormula (fuel : Nat) : TakesFront (typedFormula fuel) :=
  (takesFront_typing fuel).orElse
    ((takesFront_typedPhrase (takesFront_typedPart false fuel) fuel).require _)

/-! ## Annotations and items -/

/-- A list in brackets, which may be empty. -/
theorem takesFront_bracketed {r : Parser Unit} (hr : TakesFront r) (fuel : Nat) :
    TakesFront (bracketed r fuel) := by
  refine (takesFront_expect "[").bind fun _ => takesFront_accept_bind "]" fun empty => ?_
  refine takesFront_ite (takesFront_pure ()) ?_
  exact (takesFront_separated "," hr fuel).discard.bind fun _ => takesFront_expect "]"

/-- Something in parentheses, and what comes after it. -/
theorem TakesFront.enclosed_bind {r : Parser Unit} (hr : TakesFront r) {k : Parser β}
    (hk : TakesFront k) :
    TakesFront (expect "(" >>= fun _ => r >>= fun _ => expect ")" >>= fun _ => k) :=
  (takesFront_expect "(").bind fun _ => hr.bind fun _ => (takesFront_expect ")").bind fun _ => hk

/-- Sources of formulas, which may be lists of sources and may hold formulas of any kind. -/
theorem takesFront_source (fuel : Nat) : TakesFront (source fuel) := by
  induction fuel with
  | zero => exact takesFront_failure
  | succ fuel ih =>
    -- every source may go on behind a colon
    have htail : TakesFront (sourceTail fuel) :=
      takesFront_accept_bind ":" fun _ => takesFront_ite ih (takesFront_pure ())
    -- a bracket is looked at before it is taken
    refine takesFront_get.bind fun ts => ?_
    split
    · exact takesFront_bracketed ih fuel
    · refine takesFront_next_bind fun t => ?_
      split
      · exact (takesFront_arguments ih fuel).discard.bind fun _ => htail
      · exact (takesFront_arguments ih fuel).discard.bind fun _ => htail
      · exact htail
      · exact htail
      · exact htail
      · exact htail
      · exact (takesFront_clause fuel).discard.enclosed_bind htail
      · exact (takesFront_formula fuel).enclosed_bind htail
      · exact (takesFront_typedFormula fuel).enclosed_bind htail
      · exact (takesFront_expr fuel).discard.enclosed_bind htail
      · exact takesFront_failure.bind fun _ => htail

/-- The annotations at the end of an item, if there are any. -/
theorem takesFront_annotations (fuel : Nat) : TakesFront (annotations fuel) := by
  have hsource := takesFront_source fuel
  refine takesFront_accept_bind "," fun _ => takesFront_ite ?_ (takesFront_pure ())
  refine hsource.bind fun _ => takesFront_accept_bind "," fun _ => ?_
  exact takesFront_ite (takesFront_bracketed hsource fuel) (takesFront_pure ())

theorem takesFront_name : TakesFront name := by
  refine takesFront_next_bind fun t => ?_
  cases t with
  | lower s | quoted s | integer s => exact takesFront_pure _
  | _ => exact takesFront_failure

theorem takesFront_role : TakesFront role := by
  refine takesFront_next_bind fun t => ?_
  cases t with
  | lower s => exact takesFront_pure s
  | _ => exact takesFront_failure

theorem takesFront_fileName : TakesFront fileName := by
  refine takesFront_next_bind fun t => ?_
  cases t with
  | quoted s => exact takesFront_pure _
  | _ => exact takesFront_failure

/-! ## The last words of an item -/

/-- The words are closed if the parser takes all of them. -/
def Closes (p : Parser α) : Prop := ∀ ⦃ts : List Token⦄ ⦃a : α⦄, p ts = some (a, []) → Closed ts

/-- Expecting a mark succeeds if and only if it comes next. -/
theorem expect_eq_some_iff {m : String} {u : Unit} {ts rest : List Token} :
    expect m ts = some (u, rest) ↔ ts = .mark m :: rest := by
  constructor
  · intro hrun
    match ts, hrun with
    | t :: ts, hrun =>
      rw [expect] at hrun
      split at hrun <;> cases hrun
      next ht => rw [ht]
  · rintro rfl
    exact expect_cons m rest

/-- The end of an item are a closing parenthesis and a full stop. -/
theorem closes_end (a : α) : Closes (expect ")" >>= fun _ => expect "." >>= fun _ => pure a) := by
  intro ts b hrun
  simp only [bind_eq_some_iff] at hrun
  obtain ⟨_, ts₁, hclose, _, ts₂, hstop, hpure⟩ := hrun
  cases hpure
  -- these two words are all that is left to read
  refine ⟨[], ?_⟩
  rw [expect_eq_some_iff.1 hclose, expect_eq_some_iff.1 hstop]
  rfl

theorem closes_failure : Closes (failure : Parser α) := fun _ _ hrun => nomatch hrun

/-- What comes before the end does not matter. -/
theorem TakesFront.bind_closes {f : α → Parser β} (hp : TakesFront p) (hf : ∀ a, Closes (f a)) :
    Closes (p >>= f) := by
  intro ts b hrun
  obtain ⟨a, ts', hrun, hrun'⟩ := bind_eq_some_iff.1 hrun
  -- the first parser takes some words, and the rest is closed
  obtain ⟨taken, rfl⟩ := hp hrun
  obtain ⟨front, rfl⟩ := hf a hrun'
  exact ⟨taken ++ front, (List.append_assoc ..).symm⟩

/-- What is made of the result of the last parser does not matter. -/
theorem Closes.bind_pure (hp : Closes p) (f : α → β) : Closes (p >>= fun a => pure (f a)) := by
  intro ts b hrun
  obtain ⟨a, ts', hrun, hpure⟩ := bind_eq_some_iff.1 hrun
  cases hpure
  exact hp hrun

/-- An item with a formula closes, whatever its formula is. -/
theorem closes_annotated {body : Parser α} (hbody : TakesFront body) (fuel : Nat) :
    Closes (annotated body fuel) :=
  (takesFront_expect "(").bind_closes fun _ => takesFront_name.bind_closes fun n =>
    (takesFront_expect ",").bind_closes fun _ => takesFront_role.discard.bind_closes fun _ =>
      (takesFront_expect ",").bind_closes fun _ => hbody.bind_closes fun a =>
        (takesFront_annotations fuel).bind_closes fun _ => closes_end (n, a)

/-- An inclusion closes, with or without a selection of names. -/
theorem closes_inclusion (fuel : Nat) : Closes (inclusion fuel) := by
  refine (takesFront_expect "(").bind_closes fun _ => takesFront_fileName.bind_closes fun file => ?_
  refine (takesFront_accept ",").bind_closes fun selected => ?_
  split
  · refine (takesFront_expect "[").bind_closes fun _ => ?_
    refine (takesFront_separated "," takesFront_name fuel).bind_closes fun names => ?_
    exact (takesFront_expect "]").bind_closes fun _ =>
      (takesFront_pure (some names)).bind_closes fun selection => closes_end _
  · exact (takesFront_pure none).bind_closes fun selection => closes_end _

/-- An item of any kind closes. -/
theorem closes_item (fuel : Nat) (spelling : String) : Closes (item fuel spelling) := by
  refine takesFront_next.bind_closes fun t => ?_
  split
  · exact (closes_annotated (takesFront_clause fuel) fuel).bind_pure fun a => Item.clause a.1 a.2
  · have hformula := closes_annotated (takesFront_formula fuel) fuel
    exact (hformula.bind_pure fun _ => ()).bind_pure fun _ => Item.formula spelling
  · have hformula := closes_annotated (takesFront_typedFormula fuel) fuel
    exact (hformula.bind_pure fun _ => ()).bind_pure fun _ => Item.formula spelling
  · exact closes_inclusion fuel
  · exact closes_failure

end Parser

/-- **An item ends with a closing parenthesis and a full stop.** -/
theorem Item.closed_of_parse? {words : List Token} {i : Item} (h : Item.parse? words = some i) :
    Closed words := by
  unfold Item.parse? at h
  split at h
  · next j hrun => exact Parser.closes_item _ _ hrun
  · cases h

end Clausal.Problem
