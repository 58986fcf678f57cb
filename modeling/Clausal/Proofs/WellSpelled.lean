/-
The names in the items of a document are spelled as words. Whatever a text says, a
parser only ever hands on the spellings of the words it has taken: the name of a variable
is a capital letter with word characters behind it, the name of a symbol is a word of its
kind that can be read back, and so on down the whole item.

The argument is an invariant of parsers. `Gives p Q` says that from words which can be
read back the parser returns something that passes `Q`, and leaves words which can be read
back; there is one lemma for each way to put parsers together, and one for each parser of
the grammar of clauses. The other grammars return nothing but a spelling that is never
taken apart again.
-/
import Clausal.Proofs.Statements

set_option autoImplicit false

namespace Clausal.Problem

/-! ## Well-spelled items -/

/-- Every name in the expression is the spelling of a word of the right kind. -/
inductive Expr.WellSpelled : Expr → Prop where
  | var {name : String} (spelled : IsVariableName name) : WellSpelled (.var name)
  | apply {name : String} {args : List Expr} (spelled : Spells Token.isAtomic name)
    (args_spelled : ∀ e ∈ args, WellSpelled e) : WellSpelled (.apply name args)
  | constant {s : String} (spelled : Spells Token.isConstant s) : WellSpelled (.constant s)
  | reserved {name : String} {args : List Expr} (spelled : Spells Token.isReserved name)
    (args_spelled : ∀ e ∈ args, WellSpelled e) : WellSpelled (.reserved name args)

/-- The name of a predication is a word of the right kind, and all expressions in the atom are
well spelled. -/
inductive AtomExpr.WellSpelled : AtomExpr → Prop where
  | plain {name : String} {args : List Expr} (spelled : Spells Token.isAtomic name)
    (args_spelled : ∀ e ∈ args, e.WellSpelled) : WellSpelled (.plain name args)
  | reserved {name : String} {args : List Expr} (spelled : Spells Token.isReserved name)
    (args_spelled : ∀ e ∈ args, e.WellSpelled) : WellSpelled (.reserved name args)
  | equation {lhs rhs : Expr} (left : lhs.WellSpelled) (right : rhs.WellSpelled) :
    WellSpelled (.equation lhs rhs)

/-- The atom, or both sides of the inequation, are well spelled. -/
inductive LiteralExpr.WellSpelled : LiteralExpr → Prop where
  | positive {a : AtomExpr} (atom : a.WellSpelled) : WellSpelled (.positive a)
  | negative {a : AtomExpr} (atom : a.WellSpelled) : WellSpelled (.negative a)
  | inequation {lhs rhs : Expr} (left : lhs.WellSpelled) (right : rhs.WellSpelled) :
    WellSpelled (.inequation lhs rhs)

/-- A clause has a name that is a word, and at least one literal; of any other item nothing
is asked. -/
def Item.WellSpelled : Item → Prop
  | .clause name literals =>
    Spells Token.isLabel name ∧ literals ≠ [] ∧ ∀ l ∈ literals, l.WellSpelled
  | .formula _ | .inclusion _ _ => True

/-! ## Sound words -/

/-- The word is a mark, or it can be read back. -/
def Token.Sound (t : Token) : Prop := t.isMark = false → t.Readable

/-- A sound word that is no mark spells its text, as a word of any kind that it has. -/
theorem Token.Sound.spells {t : Token} (h : t.Sound) (ht : t.isMark = false)
    {kind : Token → Bool} (hkind : kind t = true) : Spells kind t.text :=
  ⟨t, h ht, hkind, rfl⟩

/-- The text of a sound variable is a capital letter with word characters behind it. -/
theorem Token.Sound.isVariableName {s : String} (h : (Token.upper s).Sound) :
    IsVariableName s :=
  isVariableName_of_scan? (@Token.Readable.scan?_eq (.upper s) (h rfl) [] trivial)

/-- All words of a statement are sound, since each has been scanned. -/
theorem sound_of_mem_statement? {cs : List Char} {s : List Token × List Char}
    (h : statement? cs = some s) : ∀ t ∈ s.1, t.Sound := by
  fun_induction statement? cs generalizing s with
  -- the full stop is the last word of the statement, and no other word comes behind it
  | case1 => cases h
  | case2 cs rest hscan =>
    cases h
    have : Token.Sound .fullStop := Token.readable_of_scan? hscan
    simpa using this
  | case3 cs t rest hscan _ ih =>
    obtain ⟨s', h', rfl⟩ := Option.map_eq_some_iff.1 h
    exact List.forall_mem_cons.2 ⟨Token.readable_of_scan? hscan, ih h'⟩

/-! ## Parsers on sound words -/

namespace Parser

variable {α β : Type}

/-- One parser after another succeeds just if the first does and the second does on the words
left over. -/
theorem bind_eq_some_iff {p : Parser α} {f : α → Parser β} {ts : List Token}
    {b : β × List Token} :
    (p >>= f) ts = some b ↔ ∃ a ts', p ts = some (a, ts') ∧ f a ts' = some b := by
  show (p ts).bind (fun s => f s.1 s.2) = some b ↔ _
  rw [Option.bind_eq_some_iff]
  exact Prod.exists

/-- What the parser returns from sound words passes the condition, and the words that it
leaves are sound again. -/
def Gives (p : Parser α) (Q : α → Prop) : Prop :=
  ∀ ⦃ts : List Token⦄ ⦃a : α⦄ ⦃rest : List Token⦄, (∀ t ∈ ts, t.Sound) →
    p ts = some (a, rest) → Q a ∧ ∀ t ∈ rest, t.Sound

variable {p : Parser α} {Q : α → Prop} {R : β → Prop}

/-- Returning a value takes no words. -/
theorem gives_pure {a : α} (h : Q a) : Gives (pure a) Q := by
  intro ts b rest hts hrun
  cases hrun
  exact ⟨h, hts⟩

/-- A parser that always fails gives whatever one likes. -/
theorem gives_failure : Gives (failure : Parser α) Q := fun _ _ _ _ hrun => nomatch hrun

/-- In sequence: what the first gives may be used in showing what the second gives. -/
theorem Gives.bind {f : α → Parser β} (hp : Gives p Q) (hf : ∀ a, Q a → Gives (f a) R) :
    Gives (p >>= f) R := by
  intro ts b rest hts hrun
  obtain ⟨a, ts', hrun, hrun'⟩ := bind_eq_some_iff.1 hrun
  obtain ⟨ha, hts'⟩ := hp hts hrun
  exact hf a ha hts' hrun'

/-- What is done to a result carries one condition into another. -/
theorem Gives.map {f : α → β} (hp : Gives p Q) (hf : ∀ a, Q a → R (f a)) :
    Gives (f <$> p) R := by
  have : f <$> p = p >>= fun a => pure (f a) := rfl
  rw [this]
  exact hp.bind fun a ha => gives_pure (hf a ha)

/-- The words left over are still sound when the result is thrown away. -/
theorem Gives.discard (hp : Gives p Q) : Gives (discard p) fun _ => True :=
  Gives.map (f := fun _ => ()) hp fun _ _ => trivial

/-- A choice that has been made gives what both branches give. -/
theorem gives_ite {b : Bool} {q : Parser α} (hp : Gives p Q) (hq : Gives q Q) :
    Gives (if b = true then p else q) Q := by
  split
  · exact hp
  · exact hq

/-- The next word is sound, as all are. -/
theorem gives_next : Gives next Token.Sound := by
  intro ts t rest hts hrun
  match ts, hrun with
  | t :: ts, rfl => exact List.forall_mem_cons.1 hts

/-- Taking a mark that has to be there leaves sound words. -/
theorem gives_expect (m : String) : Gives (expect m) fun _ => True := by
  intro ts _ rest hts hrun
  match ts, hrun with
  | t :: ts, hrun =>
    rw [expect] at hrun
    split at hrun
    · cases hrun
      exact ⟨trivial, (List.forall_mem_cons.1 hts).2⟩
    · cases hrun

/-- Taking a mark that may be there leaves sound words, whether it was there or not. -/
theorem gives_accept (m : String) : Gives (accept m) fun _ => True := by
  intro ts _ rest hts hrun
  match ts, hrun with
  | [], hrun =>
    cases hrun
    exact ⟨trivial, hts⟩
  | t :: ts, hrun =>
    rw [accept] at hrun
    split at hrun <;> cases hrun
    · exact ⟨trivial, (List.forall_mem_cons.1 hts).2⟩
    · exact ⟨trivial, hts⟩

/-- Looking ahead takes no words. -/
theorem gives_atSystemWord : Gives atSystemWord fun _ => True := by
  intro ts b rest hts hrun
  unfold atSystemWord at hrun
  split at hrun <;> cases hrun <;> exact ⟨trivial, hts⟩

/-- A list with marks in between is not empty, and all its entries are of the kind. -/
theorem gives_separated (hp : Gives p Q) (m : String) (fuel : Nat) :
    Gives (separated m p fuel) fun as => as ≠ [] ∧ ∀ a ∈ as, Q a := by
  -- along the fuel, which goes down by one at each entry
  induction fuel with
  | zero => exact gives_failure
  | succ fuel ih =>
    refine hp.bind fun a ha => (gives_accept m).bind fun more _ => gives_ite ?_ ?_
    · exact ih.bind fun as has => gives_pure ⟨by simp, List.forall_mem_cons.2 ⟨ha, has.2⟩⟩
    · exact gives_pure ⟨by simp, by simpa using ha⟩

/-- The arguments of a symbol, of which there may be none. -/
theorem gives_arguments (hp : Gives p Q) (fuel : Nat) :
    Gives (arguments p fuel) fun as => ∀ a ∈ as, Q a := by
  refine (gives_accept "(").bind fun some _ => gives_ite ?_ ?_
  · refine (gives_separated hp "," fuel).bind fun as has => ?_
    exact (gives_expect ")").bind fun _ _ => gives_pure has.2
  · exact gives_pure (by simp)

/-! ## The grammar of clauses -/

/-- **Expressions are well spelled.** -/
theorem gives_expr (fuel : Nat) : Gives (expr fuel) Expr.WellSpelled := by
  induction fuel with
  | zero => exact gives_failure
  | succ fuel ih =>
    refine gives_next.bind fun t ht => ?_
    -- one case for each kind of word
    cases t with
    | upper x => exact gives_pure (.var ht.isVariableName)
    | lower f | quoted f =>
      exact (gives_arguments ih fuel).map fun args hargs => .apply (ht.spells rfl rfl) hargs
    | integer s | number s | object s => exact gives_pure (.constant (ht.spells rfl rfl))
    | defined d | system d =>
      exact (gives_arguments ih fuel).map fun args hargs => .reserved (ht.spells rfl rfl) hargs
    | mark m => exact gives_failure

/-- A well-spelled expression that is taken for an atom is a well-spelled atom. -/
theorem gives_predication {e : Expr} (h : e.WellSpelled) :
    Gives (predication e) AtomExpr.WellSpelled := by
  cases h with
  | apply spelled args_spelled => exact gives_pure (.plain spelled args_spelled)
  | reserved spelled args_spelled => exact gives_pure (.reserved spelled args_spelled)
  | var _ | constant _ => exact gives_failure

/-- What stands behind a well-spelled expression makes it one side of an equation or leaves it a
predication. -/
theorem gives_equationOrPredication (fuel : Nat) {e : Expr} (h : e.WellSpelled) :
    Gives (equationOrPredication fuel e) AtomExpr.WellSpelled := by
  refine (gives_accept "=").bind fun isEquation _ => gives_ite ?_ (gives_predication h)
  exact (gives_expr fuel).map fun e' he' => .equation h he'

/-- The atom behind a negation sign, where a system word never starts an equation. -/
theorem gives_negatedAtom (fuel : Nat) : Gives (negatedAtom fuel) AtomExpr.WellSpelled := by
  refine gives_atSystemWord.bind fun system _ => gives_ite ?_ ?_
  · exact (gives_expr fuel).bind fun e he => gives_predication he
  · exact (gives_expr fuel).bind fun e he => gives_equationOrPredication fuel he

/-- **Literals are well spelled.** -/
theorem gives_literal (fuel : Nat) : Gives (literal fuel) LiteralExpr.WellSpelled := by
  refine (gives_accept "~").bind fun negative _ => gives_ite ?_ ?_
  · exact (gives_negatedAtom fuel).map fun a ha => .negative ha
  · refine (gives_expr fuel).bind fun e he => ?_
    refine (gives_accept "!=").bind fun denied _ => gives_ite ?_ ?_
    · exact (gives_expr fuel).map fun e' he' => .inequation he he'
    · exact (gives_equationOrPredication fuel he).map fun a ha => .positive ha

/-- A clause has at least one literal, in brackets or not. -/
theorem gives_clause (fuel : Nat) :
    Gives (clause fuel) fun ls => ls ≠ [] ∧ ∀ l ∈ ls, l.WellSpelled := by
  have hliterals := gives_separated (gives_literal fuel) "|" fuel
  refine (gives_accept "(").bind fun enclosed _ => gives_ite ?_ hliterals
  exact hliterals.bind fun ls hls => (gives_expect ")").bind fun _ _ => gives_pure hls

/-- The name of an item can be read back as a name. -/
theorem gives_name : Gives name (Spells Token.isLabel) := by
  refine gives_next.bind fun t ht => ?_
  cases t with
  | lower s | quoted s | integer s => exact gives_pure (ht.spells rfl rfl)
  | _ => exact gives_failure

/-- Nothing is asked of a role. -/
theorem gives_role : Gives role fun _ => True := by
  refine gives_next.bind fun t _ => ?_
  cases t with
  | lower s => exact gives_pure trivial
  | _ => exact gives_failure

/-- A formula is returned with the name and the body that were parsed, whatever comes
behind them. -/
theorem wellSpelled_of_annotated {body : Parser α} (hbody : Gives body Q) {fuel : Nat}
    {ts rest : List Token} {n : String} {a : α} (hts : ∀ t ∈ ts, t.Sound)
    (h : annotated body fuel ts = some ((n, a), rest)) : Spells Token.isLabel n ∧ Q a := by
  simp only [annotated, bind_eq_some_iff] at h
  obtain ⟨_, ts₁, h₁, n', ts₂, h₂, _, ts₃, h₃, role, ts₄, h₄, _, ts₅, h₅, a', ts₆, h₆, h⟩ := h
  have hts₁ := (gives_expect "(" hts h₁).2
  obtain ⟨hname, hts₂⟩ := gives_name hts₁ h₂
  have hts₃ := (gives_expect "," hts₂ h₃).2
  have hts₄ := (gives_role.discard hts₃ h₄).2
  have hts₅ := (gives_expect "," hts₄ h₅).2
  have ha := (hbody hts₅ h₆).1
  -- the annotations take words, but the name and the body stay as they are
  obtain ⟨_, _, -, _, _, -, _, _, -, h⟩ := h
  cases h
  exact ⟨hname, ha⟩

/-- What the parser of inclusions returns is an inclusion, with a selection of names or
without. -/
theorem exists_of_inclusion {fuel : Nat} {ts rest : List Token} {i : Item}
    (h : inclusion fuel ts = some (i, rest)) : ∃ file selection, i = .inclusion file selection := by
  simp only [inclusion, bind_eq_some_iff] at h
  obtain ⟨_, _, -, file, _, -, selected, _, -, h⟩ := h
  split at h
  · simp only [bind_eq_some_iff] at h
    obtain ⟨_, _, -, names, _, -, _, _, -, selection, _, -, _, _, -, _, _, -, hpure⟩ := h
    cases hpure
    exact ⟨file, selection, rfl⟩
  · simp only [bind_eq_some_iff] at h
    obtain ⟨selection, _, -, _, _, -, _, _, -, hpure⟩ := h
    cases hpure
    exact ⟨file, selection, rfl⟩

end Parser

open Clausal.Problem.Parser

/-! ## Documents -/

/-- An item that is parsed from sound words is well spelled. Only a clause has something to
show. -/
theorem Item.wellSpelled_of_parse? {words : List Token} {i : Item} (hwords : ∀ t ∈ words, t.Sound)
    (h : Item.parse? words = some i) : i.WellSpelled := by
  unfold Item.parse? at h
  split at h
  · next j hrun =>
    cases h
    obtain ⟨t, ts, hnext, hrun⟩ := bind_eq_some_iff.1 hrun
    have hts := (gives_next hwords hnext).2
    split at hrun
    -- a clause; then the two kinds of formulas, inclusions, and any other word in front
    · obtain ⟨⟨n, ls⟩, _, hannotated, hpure⟩ := bind_eq_some_iff.1 hrun
      cases hpure
      exact wellSpelled_of_annotated (gives_clause _) hts hannotated
    · obtain ⟨_, _, -, hpure⟩ := bind_eq_some_iff.1 hrun
      cases hpure
      trivial
    · obtain ⟨_, _, -, hpure⟩ := bind_eq_some_iff.1 hrun
      cases hpure
      trivial
    · obtain ⟨file, selection, rfl⟩ := exists_of_inclusion hrun
      trivial
    · cases hrun
  · cases h

/-- The same for an item that is read from characters. -/
theorem Item.wellSpelled_of_item? {cs : List Char} {i : Item × List Char}
    (h : item? cs = some i) : i.1.WellSpelled := by
  simp only [item?, Option.bind_eq_bind, Option.bind_eq_some_iff] at h
  obtain ⟨s, hs, j, hj, h⟩ := h
  cases h
  exact wellSpelled_of_parse? (sound_of_mem_statement? hs) hj

/-- **Items are well spelled.** Every item of every text is. -/
theorem Document.wellSpelled_of_mem_items {start : Nat} {cs : List Char} :
    ∀ i ∈ (ofTextAt start cs).items, i.WellSpelled := by
  fun_induction ofTextAt start cs with
  | case1 => simp
  | case2 => simp
  | case3 start cs _ i rest hitem d ih =>
    exact List.forall_mem_cons.2 ⟨Item.wellSpelled_of_item? hitem, ih⟩

end Clausal.Problem
