/-
Words are parsed back. The grammar of clauses is undone word by word: `Expr.words` lists
the words of an expression in the order in which they are written, and the parser takes
exactly these off the front, whatever comes behind them that does not carry the
expression on (`Parser.expr_words`). The same goes for literals, clauses and the
annotations that cite an inference, and so for whole statements.

A parser that recurses counts down a bound. No bound below the number of words is ever
reached, because every call has a word of its own.
-/
import Clausal.Proofs.WellSpelled

set_option autoImplicit false

namespace Clausal.Problem

/-! ## The words of an expression -/

/-- A parenthesised list of words; nothing at all if the list is empty. -/
def argumentWords : List (List Token) → List Token
  | [] => []
  | args => .mark "(" :: [Token.mark ","].intercalate args ++ [.mark ")"]

namespace Expr

mutual

/-- The words of an expression. -/
def words : Expr → List Token
  | .var name => [.upper name]
  | .apply name args => .ofSpelling name :: argumentWords (wordsList args)
  | .constant spelling => [.ofSpelling spelling]
  | .reserved name args => .ofSpelling name :: argumentWords (wordsList args)

def wordsList : List Expr → List (List Token)
  | [] => []
  | e :: es => e.words :: wordsList es

end

/-- The list half is a map. -/
theorem wordsList_eq (es : List Expr) : wordsList es = es.map words := by
  induction es with
  | nil => rfl
  | cons e es ih => rw [wordsList, List.map_cons, ih]

/-- The words of a call, with those of the arguments as a map. -/
theorem words_apply (name : String) (args : List Expr) :
    (apply name args).words = .ofSpelling name :: argumentWords (args.map words) := by
  rw [words, wordsList_eq]

theorem words_reserved (name : String) (args : List Expr) :
    (reserved name args).words = .ofSpelling name :: argumentWords (args.map words) := by
  rw [words, wordsList_eq]

/-- Every expression has a word, so a recursive call always has one to take. -/
theorem length_words_pos (e : Expr) : 0 < e.words.length := by
  cases e <;> simp [words]

end Expr

/-- The words of an atom. -/
def AtomExpr.words : AtomExpr → List Token
  | .plain name args => (Expr.apply name args).words
  | .reserved name args => (Expr.reserved name args).words
  | .equation lhs rhs => lhs.words ++ .mark "=" :: rhs.words

/-- The words of a literal. -/
def LiteralExpr.words : LiteralExpr → List Token
  | .positive a => a.words
  | .negative a => .mark "~" :: a.words
  | .inequation lhs rhs => lhs.words ++ .mark "!=" :: rhs.words

/-! ## Lists with marks in between -/

/-- No entry of a list is longer than the whole. -/
theorem length_le_length_intercalate {m : Token} {w : List Token} {ws : List (List Token)}
    (h : w ∈ ws) : w.length ≤ ([m].intercalate ws).length := by
  induction ws with
  | nil => simp at h
  | cons v ws ih =>
    rcases ws with _ | ⟨v', ws⟩
    · exact Nat.le_of_eq (by rw [List.mem_singleton.1 h, List.intercalate_singleton])
    · rw [List.intercalate_cons_cons, List.length_append, List.length_append]
      rcases List.mem_cons.1 h with rfl | h
      · omega
      · have := ih h
        omega

/-- If every entry has a word, then there are no more entries than words. -/
theorem length_le_intercalate_length {m : Token} {ws : List (List Token)}
    (h : ∀ w ∈ ws, 0 < w.length) : ws.length ≤ ([m].intercalate ws).length := by
  induction ws with
  | nil => simp
  | cons v ws ih =>
    have hv := h v List.mem_cons_self
    have hle := ih fun w hw => h w (List.mem_cons_of_mem v hw)
    rcases ws with _ | ⟨v', ws⟩
    · rw [List.intercalate_singleton]
      exact hv
    · rw [List.intercalate_cons_cons, List.length_append, List.length_append]
      simp only [List.length_cons] at hle ⊢
      omega

namespace Parser

variable {α β : Type}

/-! ## Running parsers -/

/-- The second parser runs on what the first one leaves. -/
theorem bind_of_eq {p : Parser α} {f : α → Parser β} {ts ts' : List Token} {a : α}
    (h : p ts = some (a, ts')) : (p >>= f) ts = f a ts' := by
  show (p ts).bind (fun s => f s.1 s.2) = _
  rw [h]
  rfl

/-- What is done to a result takes no words. -/
theorem map_of_eq {p : Parser α} {f : α → β} {ts ts' : List Token} {a : α}
    (h : p ts = some (a, ts')) : (f <$> p) ts = some (f a, ts') :=
  bind_of_eq (f := fun a => pure (f a)) h

theorem discard_of_eq {p : Parser α} {ts ts' : List Token} {a : α} (h : p ts = some (a, ts')) :
    discard p ts = some ((), ts') :=
  map_of_eq (f := fun _ => ()) h

/-- The mark is not what comes next. -/
def NotNext (m : String) (ts : List Token) : Prop := ts.head? ≠ some (.mark m)

/-- The first word is another one. -/
theorem notNext_cons {m : String} {t : Token} {ts : List Token} (h : t ≠ .mark m) :
    NotNext m (t :: ts) := by
  intro heq
  exact h (Option.some.inj heq)

theorem accept_cons (m : String) (ts : List Token) : accept m (.mark m :: ts) = some (true, ts) :=
  if_pos rfl

/-- A mark that does not come next is not taken. -/
theorem accept_of_notNext {m : String} {ts : List Token} (h : NotNext m ts) :
    accept m ts = some (false, ts) := by
  match ts, h with
  | [], _ => rfl
  | t :: ts, h => exact if_neg fun ht => h (by rw [ht]; rfl)

theorem expect_cons (m : String) (ts : List Token) : expect m (.mark m :: ts) = some ((), ts) :=
  if_pos rfl

/-- What does not come next where the first of several entries begins does not come next
where all of them do. -/
theorem notNext_intercalate {m : String} {separator : List Token} {ws : List (List Token)}
    (hne : ws ≠ []) (h : ∀ w ∈ ws, ∀ ts, NotNext m (w ++ ts)) (ts : List Token) :
    NotNext m (separator.intercalate ws ++ ts) := by
  rcases ws with _ | ⟨w, _ | ⟨v, ws⟩⟩
  · exact absurd rfl hne
  · rw [List.intercalate_singleton]
    exact h w List.mem_cons_self ts
  · rw [List.intercalate_cons_cons, List.append_assoc, List.append_assoc]
    exact h w List.mem_cons_self _

/-- A list with marks in between is parsed entry by entry, if each entry is parsed in
front of anything that passes the condition `follow`. -/
theorem separated_intercalate {m : String} {p : Parser β} {f : α → β} {w : α → List Token}
    {follow : List Token → Prop} (hmark : ∀ ts, follow (.mark m :: ts)) {as : List α}
    (hne : as ≠ []) (hp : ∀ a ∈ as, ∀ ts, follow ts → p (w a ++ ts) = some (f a, ts))
    {fuel : Nat} (hfuel : as.length ≤ fuel) {rest : List Token} (hrest : follow rest)
    (hm : NotNext m rest) :
    separated m p fuel ([Token.mark m].intercalate (as.map w) ++ rest) =
      some (as.map f, rest) := by
  induction as generalizing fuel with
  | nil => exact absurd rfl hne
  | cons a as ih =>
    rcases fuel with _ | fuel
    · simp at hfuel
    · rcases as with _ | ⟨b, as⟩
      · -- the last entry: no mark follows
        have ha := hp a List.mem_cons_self rest hrest
        simp only [List.map_cons, List.map_nil, List.intercalate_singleton]
        rw [separated, bind_of_eq ha, bind_of_eq (accept_of_notNext hm)]
        rfl
      · have hrec := ih (by simp) (fun b hb => hp b (List.mem_cons_of_mem a hb))
          (Nat.le_of_succ_le_succ hfuel)
        simp only [List.map_cons, List.intercalate_cons_cons, List.append_assoc,
          List.cons_append, List.nil_append] at hrec ⊢
        rw [separated, bind_of_eq (hp a List.mem_cons_self _ (hmark _)),
          bind_of_eq (accept_cons m _), if_pos rfl, bind_of_eq hrec]
        rfl

/-- An argument list is parsed back, where no list at all needs no parenthesis to come
next. -/
theorem arguments_words {p : Parser β} {f : α → β} {w : α → List Token}
    {follow : List Token → Prop} (hcomma : ∀ ts, follow (.mark "," :: ts))
    (hclose : ∀ ts, follow (.mark ")" :: ts)) {as : List α}
    (hp : ∀ a ∈ as, ∀ ts, follow ts → p (w a ++ ts) = some (f a, ts))
    {fuel : Nat} (hfuel : as.length ≤ fuel) {rest : List Token} (hrest : NotNext "(" rest) :
    arguments p fuel (argumentWords (as.map w) ++ rest) = some (as.map f, rest) := by
  rcases as with _ | ⟨a, as⟩
  -- no arguments are no words at all
  · show arguments p fuel rest = _
    rw [arguments, bind_of_eq (accept_of_notNext hrest)]
    rfl
  · have hlist : separated "," p fuel
        ([Token.mark ","].intercalate ((a :: as).map w) ++ .mark ")" :: rest) =
          some ((a :: as).map f, .mark ")" :: rest) :=
      separated_intercalate hcomma (by simp) hp hfuel (hclose rest) (notNext_cons (by decide))
    have hwords : argumentWords ((a :: as).map w) ++ rest =
        .mark "(" :: ([Token.mark ","].intercalate ((a :: as).map w) ++ .mark ")" :: rest) := by
      simp [argumentWords]
    rw [hwords, arguments, bind_of_eq (accept_cons "(" _), if_pos rfl, bind_of_eq hlist,
      bind_of_eq (expect_cons ")" rest)]
    rfl

/-- In a bounded list of words there are no more entries than the bound, and none is
longer. -/
theorem intercalate_bounds {m : Token} {ws : List (List Token)} {n : Nat}
    (h : ([m].intercalate ws).length ≤ n) (hpos : ∀ w ∈ ws, 0 < w.length) :
    ws.length ≤ n ∧ ∀ w ∈ ws, w.length ≤ n :=
  ⟨Nat.le_trans (length_le_intercalate_length hpos) h,
    fun _ hw => Nat.le_trans (length_le_length_intercalate hw) h⟩

/-- In a bounded argument list there are no more arguments than the bound, and none is longer. -/
theorem argument_bounds {ws : List (List Token)} {n : Nat} (h : (argumentWords ws).length ≤ n)
    (hpos : ∀ w ∈ ws, 0 < w.length) : ws.length ≤ n ∧ ∀ w ∈ ws, w.length ≤ n := by
  rcases ws with _ | ⟨w, ws⟩
  · simp
  -- the parentheses are words of the list as well
  · refine intercalate_bounds (m := .mark ",") ?_ hpos
    simp only [argumentWords, List.length_append, List.length_cons] at h ⊢
    omega

/-! ## Expressions -/

/-- No argument is without words. -/
theorem forall_words_pos (args : List Expr) : ∀ w ∈ args.map Expr.words, 0 < w.length := by
  intro w hw
  obtain ⟨e, -, rfl⟩ := List.mem_map.1 hw
  exact e.length_words_pos

/-- The arguments of a call are parsed back, if this is known of each of them. -/
theorem arguments_expr {args : List Expr}
    (ih : ∀ e ∈ args, ∀ {fuel : Nat}, e.words.length ≤ fuel → ∀ {rest : List Token},
      NotNext "(" rest → expr fuel (e.words ++ rest) = some (e, rest))
    {fuel : Nat} (hfuel : (argumentWords (args.map Expr.words)).length ≤ fuel)
    {rest : List Token} (hrest : NotNext "(" rest) :
    arguments (expr fuel) fuel (argumentWords (args.map Expr.words) ++ rest) =
      some (args, rest) := by
  obtain ⟨hcount, hargs⟩ := argument_bounds hfuel (forall_words_pos args)
  rw [List.length_map] at hcount
  have hlist := arguments_words (f := id) (fun _ => notNext_cons (by decide))
    (fun _ => notNext_cons (by decide))
    (fun e he ts hts => ih e he (hargs _ (List.mem_map_of_mem he)) hts) hcount hrest
  rwa [List.map_id] at hlist

/-- Behind the name of a symbol its arguments are parsed. -/
theorem expr_atomic {t : Token} (h : t.isAtomic = true) (fuel : Nat) (ts : List Token) :
    expr (fuel + 1) (t :: ts) = (.apply t.text <$> arguments (expr fuel) fuel) ts := by
  cases t <;> first | rfl | cases h

/-- A number or a distinct object has no arguments. -/
theorem expr_constant {t : Token} (h : t.isConstant = true) (fuel : Nat) (ts : List Token) :
    expr (fuel + 1) (t :: ts) = some (.constant t.text, ts) := by
  cases t <;> first | rfl | cases h

/-- Behind a reserved name its arguments are parsed. -/
theorem expr_reserved {t : Token} (h : t.isReserved = true) (fuel : Nat) (ts : List Token) :
    expr (fuel + 1) (t :: ts) = (.reserved t.text <$> arguments (expr fuel) fuel) ts := by
  cases t <;> first | rfl | cases h

/-- **Expressions are parsed back.** The words of a well-spelled expression are taken off
the front, and no more, unless an argument list seems to follow. -/
theorem expr_words {e : Expr} (h : e.WellSpelled) {fuel : Nat} (hfuel : e.words.length ≤ fuel)
    {rest : List Token} (hrest : NotNext "(" rest) :
    expr fuel (e.words ++ rest) = some (e, rest) := by
  -- along the expression; where the bound is used up, there would be no word left
  induction h generalizing fuel rest with
  | var spelled =>
    rcases fuel with _ | fuel
    · simp [Expr.words] at hfuel
    · rfl
  | apply spelled args_spelled ih =>
    rw [Expr.words_apply] at hfuel ⊢
    rcases fuel with _ | fuel
    · simp at hfuel
    · obtain ⟨-, hkind, htext⟩ := spelled.ofSpelling
      have hlist := arguments_expr ih (Nat.le_of_succ_le_succ hfuel) hrest
      rw [List.cons_append, expr_atomic hkind, map_of_eq hlist, htext]
  | constant spelled =>
    obtain ⟨-, hkind, htext⟩ := spelled.ofSpelling
    rcases fuel with _ | fuel
    · simp [Expr.words] at hfuel
    · rw [Expr.words, List.singleton_append, expr_constant hkind, htext]
  | reserved spelled args_spelled ih =>
    rw [Expr.words_reserved] at hfuel ⊢
    rcases fuel with _ | fuel
    · simp at hfuel
    · obtain ⟨-, hkind, htext⟩ := spelled.ofSpelling
      have hlist := arguments_expr ih (Nat.le_of_succ_le_succ hfuel) hrest
      rw [List.cons_append, expr_reserved hkind, map_of_eq hlist, htext]

/-! ## Literals and clauses -/

/-- No expression begins with a mark. -/
theorem notNext_words {e : Expr} (h : e.WellSpelled) (m : String) (ts : List Token) :
    NotNext m (e.words ++ ts) := by
  have hword : ∀ {kind : Token → Bool} {s : String}, Spells kind s →
      Token.ofSpelling s ≠ .mark m := by
    intro kind s hs heq
    have := hs.ofSpelling.1.isMark_eq
    rw [heq] at this
    exact nomatch this
  cases h with
  | var spelled => exact notNext_cons (by simp)
  | apply spelled _ => exact notNext_cons (hword spelled)
  | constant spelled => exact notNext_cons (hword spelled)
  | reserved spelled _ => exact notNext_cons (hword spelled)

/-- Nothing comes next that would carry a literal on. -/
def EndsLiteral (ts : List Token) : Prop := NotNext "(" ts ∧ NotNext "=" ts ∧ NotNext "!=" ts

/-- A bar ends a literal. -/
theorem endsLiteral_bar (ts : List Token) : EndsLiteral (.mark "|" :: ts) :=
  ⟨notNext_cons (by decide), notNext_cons (by decide), notNext_cons (by decide)⟩

/-- An atom that is no equation is an expression by itself. -/
theorem exists_predication {a : AtomExpr} (h : a.WellSpelled)
    (hne : ∀ lhs rhs, a ≠ .equation lhs rhs) :
    ∃ e : Expr, e.WellSpelled ∧ e.words = a.words ∧ predication e = pure a := by
  cases h with
  | plain spelled args_spelled => exact ⟨_, .apply spelled args_spelled, rfl, rfl⟩
  | reserved spelled args_spelled => exact ⟨_, .reserved spelled args_spelled, rfl, rfl⟩
  | equation left right => exact absurd rfl (hne _ _)

/-- Without a sign of equality behind it, an expression is an atom. -/
theorem equationOrPredication_of_notNext {fuel : Nat} {e : Expr} {a : AtomExpr} {ts : List Token}
    (h : predication e = pure a) (hts : NotNext "=" ts) :
    equationOrPredication fuel e ts = some (a, ts) := by
  rw [equationOrPredication, bind_of_eq (accept_of_notNext hts), if_neg (by decide), h]
  rfl

section

variable {fuel : Nat} {rest : List Token} {lhs rhs : Expr} {a : AtomExpr}

/-- An equation is parsed back. -/
theorem literal_equation (left : lhs.WellSpelled) (right : rhs.WellSpelled)
    (hleft : lhs.words.length ≤ fuel) (hright : rhs.words.length ≤ fuel)
    (hrest : NotNext "(" rest) :
    literal fuel (lhs.words ++ .mark "=" :: (rhs.words ++ rest)) =
      some (.positive (.equation lhs rhs), rest) := by
  have hlhs : expr fuel (lhs.words ++ .mark "=" :: (rhs.words ++ rest)) =
      some (lhs, .mark "=" :: (rhs.words ++ rest)) :=
    expr_words left hleft (notNext_cons (by decide))
  have hequation : equationOrPredication fuel lhs (.mark "=" :: (rhs.words ++ rest)) =
      some (.equation lhs rhs, rest) := by
    rw [equationOrPredication, bind_of_eq (accept_cons "=" _), if_pos rfl,
      map_of_eq (expr_words right hright hrest)]
  have hdenied : NotNext "!=" (.mark "=" :: (rhs.words ++ rest)) := notNext_cons (by decide)
  -- no tilde, then the left side, no sign of inequality, and the rest of the equation
  rw [literal, bind_of_eq (accept_of_notNext (notNext_words left "~" _)), if_neg (by decide),
    bind_of_eq hlhs, bind_of_eq (accept_of_notNext hdenied), if_neg (by decide),
    map_of_eq hequation]

/-- A denied equation is parsed back. -/
theorem literal_inequation (left : lhs.WellSpelled) (right : rhs.WellSpelled)
    (hleft : lhs.words.length ≤ fuel) (hright : rhs.words.length ≤ fuel)
    (hrest : NotNext "(" rest) :
    literal fuel (lhs.words ++ .mark "!=" :: (rhs.words ++ rest)) =
      some (.inequation lhs rhs, rest) := by
  have hlhs : expr fuel (lhs.words ++ .mark "!=" :: (rhs.words ++ rest)) =
      some (lhs, .mark "!=" :: (rhs.words ++ rest)) :=
    expr_words left hleft (notNext_cons (by decide))
  rw [literal, bind_of_eq (accept_of_notNext (notNext_words left "~" _)), if_neg (by decide),
    bind_of_eq hlhs, bind_of_eq (accept_cons "!=" _), if_pos rfl,
    map_of_eq (expr_words right hright hrest)]

/-- An atom that is no equation is parsed back. -/
theorem literal_predication (h : a.WellSpelled) (hne : ∀ lhs rhs, a ≠ .equation lhs rhs)
    (hfuel : a.words.length ≤ fuel) (hrest : EndsLiteral rest) :
    literal fuel (a.words ++ rest) = some (.positive a, rest) := by
  obtain ⟨e, he, hwords, hpredication⟩ := exists_predication h hne
  rw [← hwords] at hfuel ⊢
  rw [literal, bind_of_eq (accept_of_notNext (notNext_words he "~" _)), if_neg (by decide),
    bind_of_eq (expr_words he hfuel hrest.1), bind_of_eq (accept_of_notNext hrest.2.2),
    if_neg (by decide), map_of_eq (equationOrPredication_of_notNext hpredication hrest.2.1)]

/-- Looking for a word after two dollar signs takes nothing. -/
theorem exists_atSystemWord (ts : List Token) : ∃ b, atSystemWord ts = some (b, ts) := by
  unfold atSystemWord
  split
  · exact ⟨true, rfl⟩
  · exact ⟨false, rfl⟩

/-- The negation of an atom that is no equation is parsed back. -/
theorem literal_negative (h : a.WellSpelled) (hne : ∀ lhs rhs, a ≠ .equation lhs rhs)
    (hfuel : a.words.length ≤ fuel) (hrest : EndsLiteral rest) :
    literal fuel (.mark "~" :: (a.words ++ rest)) = some (.negative a, rest) := by
  obtain ⟨e, he, hwords, hpredication⟩ := exists_predication h hne
  rw [← hwords] at hfuel ⊢
  have hexpr := expr_words he hfuel hrest.1
  have hatom : negatedAtom fuel (e.words ++ rest) = some (a, rest) := by
    obtain ⟨system, hsystem⟩ := exists_atSystemWord (e.words ++ rest)
    rw [negatedAtom, bind_of_eq hsystem]
    -- either way the expression is the whole atom
    split
    · rw [bind_of_eq hexpr, hpredication]
      rfl
    · rw [bind_of_eq hexpr, equationOrPredication_of_notNext hpredication hrest.2.1]
  rw [literal, bind_of_eq (accept_cons "~" _), if_pos rfl, map_of_eq hatom]

/-- **Literals are parsed back**, all but the negation of an equation, of which the tilde
belongs to the left side if that begins with two dollar signs. -/
theorem literal_words {l : LiteralExpr} (h : l.WellSpelled)
    (hne : ∀ lhs rhs, l ≠ .negative (.equation lhs rhs)) (hfuel : l.words.length ≤ fuel)
    (hrest : EndsLiteral rest) : literal fuel (l.words ++ rest) = some (l, rest) := by
  -- by the kind of literal; a bound on all its words bounds those of both sides
  cases h with
  | positive atom =>
    cases atom with
    | equation left right =>
      simp only [LiteralExpr.words, AtomExpr.words, List.length_append, List.length_cons] at hfuel
      rw [LiteralExpr.words, AtomExpr.words, List.append_assoc, List.cons_append]
      exact literal_equation left right (by omega) (by omega) hrest.1
    | plain spelled args_spelled =>
      exact literal_predication (.plain spelled args_spelled) (by simp) hfuel hrest
    | reserved spelled args_spelled =>
      exact literal_predication (.reserved spelled args_spelled) (by simp) hfuel hrest
  | negative atom =>
    refine literal_negative atom (fun lhs rhs heq => hne lhs rhs (by rw [heq])) ?_ hrest
    exact Nat.le_of_succ_le hfuel
  | inequation left right =>
    simp only [LiteralExpr.words, List.length_append, List.length_cons] at hfuel
    rw [LiteralExpr.words, List.append_assoc, List.cons_append]
    exact literal_inequation left right (by omega) (by omega) hrest.1

/-- No literal begins with a mark other than the tilde. -/
theorem notNext_literalWords {l : LiteralExpr} (h : l.WellSpelled) {m : String} (hm : m ≠ "~")
    (ts : List Token) : NotNext m (l.words ++ ts) := by
  cases h with
  | positive atom =>
    cases atom with
    | plain spelled args_spelled => exact notNext_words (.apply spelled args_spelled) m ts
    | reserved spelled args_spelled => exact notNext_words (.reserved spelled args_spelled) m ts
    | equation left right =>
      rw [LiteralExpr.words, AtomExpr.words, List.append_assoc]
      exact notNext_words left m _
  | negative atom => exact notNext_cons fun heq => hm (Token.mark.inj heq).symm
  | inequation left right =>
    rw [LiteralExpr.words, List.append_assoc]
    exact notNext_words left m _

/-- No literal is without words. -/
theorem forall_literalWords_pos (ls : List LiteralExpr) :
    ∀ w ∈ ls.map LiteralExpr.words, 0 < w.length := by
  intro w hw
  obtain ⟨l, -, rfl⟩ := List.mem_map.1 hw
  rcases l with (⟨name, args⟩ | ⟨name, args⟩ | ⟨lhs, rhs⟩) | a | ⟨lhs, rhs⟩ <;>
    simp only [LiteralExpr.words, AtomExpr.words, Expr.words, List.length_append,
      List.length_cons] <;>
    omega

/-- Literals with bars in between. -/
def clauseWords (ls : List LiteralExpr) : List Token :=
  [Token.mark "|"].intercalate (ls.map LiteralExpr.words)

/-- **Clauses are parsed back.** -/
theorem clause_words {ls : List LiteralExpr} (hne : ls ≠ []) (h : ∀ l ∈ ls, l.WellSpelled)
    (hequations : ∀ l ∈ ls, ∀ lhs rhs, l ≠ .negative (.equation lhs rhs))
    (hfuel : (clauseWords ls).length ≤ fuel) (hrest : EndsLiteral rest)
    (hbar : NotNext "|" rest) : clause fuel (clauseWords ls ++ rest) = some (ls, rest) := by
  obtain ⟨hcount, hwords⟩ := intercalate_bounds hfuel (forall_literalWords_pos ls)
  rw [List.length_map] at hcount
  have hlist := separated_intercalate (f := id) endsLiteral_bar hne
    (fun l hl ts hts => literal_words (h l hl) (hequations l hl)
      (hwords _ (List.mem_map_of_mem hl)) hts) hcount hrest hbar
  rw [List.map_id] at hlist
  -- a clause may stand in parentheses, but this one does not
  have hopen : NotNext "(" (clauseWords ls ++ rest) := by
    refine notNext_intercalate (by simpa using hne) (fun w hw ts => ?_) rest
    obtain ⟨l, hl, rfl⟩ := List.mem_map.1 hw
    exact notNext_literalWords (h l hl) (by decide) ts
  rw [clause, bind_of_eq (accept_of_notNext hopen), if_neg (by decide)]
  exact hlist

end

/-! ## Annotations -/

/-- The words say where a formula comes from: by a number, by a name with arguments that
say so in turn, or by a list of these. -/
inductive IsSource : List Token → Prop where
  | integer (s : String) : IsSource [.integer s]
  | apply {t : Token} {args : List (List Token)} (kind : t.isAtomic = true)
    (sources : ∀ ws ∈ args, IsSource ws) : IsSource (t :: argumentWords args)
  | nil : IsSource [.mark "[", .mark "]"]
  | list {items : List (List Token)} (nonempty : items ≠ [])
    (sources : ∀ ws ∈ items, IsSource ws) :
    IsSource (.mark "[" :: ([Token.mark ","].intercalate items ++ [.mark "]"]))

/-- The name of a clause says where a formula comes from. -/
theorem isSource_of_isLabel {t : Token} (h : t.isLabel = true) : IsSource [t] := by
  cases t with
  | integer s => exact .integer s
  | lower s | quoted s => exact @IsSource.apply _ [] rfl (by simp)
  | _ => cases h

/-- No source is without words. -/
theorem IsSource.length_pos {ws : List Token} (h : IsSource ws) : 0 < ws.length := by
  cases h <;> simp

/-- No source begins with a closing bracket, so a list of them is not taken for the empty one. -/
theorem IsSource.notNext {ws : List Token} (h : IsSource ws) (ts : List Token) :
    NotNext "]" (ws ++ ts) := by
  cases h with
  | @apply t args kind sources =>
    refine notNext_cons fun heq => ?_
    rw [heq] at kind
    cases kind
  | integer s => exact notNext_cons (by simp)
  | nil | list nonempty sources => exact notNext_cons (by decide)

/-- Nothing comes next that would carry a source on. -/
def EndsSource (ts : List Token) : Prop := NotNext "(" ts ∧ NotNext ":" ts

/-- A mark that is no parenthesis and no colon ends a source. -/
theorem endsSource_mark {m : String} (hopen : m ≠ "(") (hcolon : m ≠ ":") (ts : List Token) :
    EndsSource (.mark m :: ts) :=
  ⟨notNext_cons fun h => hopen (Token.mark.inj h), notNext_cons fun h => hcolon (Token.mark.inj h)⟩

/-- What may follow a piece of data. -/
def sourceTail (fuel : Nat) : Parser Unit := do
  if ← accept ":" then source fuel else pure ()

/-- Where nothing carries a source on, no word is taken behind it. -/
theorem sourceTail_of_endsSource {fuel : Nat} {ts : List Token} (h : EndsSource ts) :
    sourceTail fuel ts = some ((), ts) := by
  rw [sourceTail, bind_of_eq (accept_of_notNext h.2)]
  rfl

/-- Behind a name its arguments are parsed, which are sources again. -/
theorem source_atomic {t : Token} (h : t.isAtomic = true) (fuel : Nat) (ts : List Token) :
    source (fuel + 1) (t :: ts) =
      (discard (arguments (source fuel) fuel) >>= fun _ => sourceTail fuel) ts := by
  cases t <;> first | rfl | cases h

theorem source_bracketed (fuel : Nat) (ts : List Token) :
    source (fuel + 1) (.mark "[" :: ts) = bracketed (source fuel) fuel (.mark "[" :: ts) := rfl

/-- **Sources are parsed back**, leaving no trace. -/
theorem source_words {ws : List Token} (h : IsSource ws) {fuel : Nat} (hfuel : ws.length ≤ fuel)
    {rest : List Token} (hrest : EndsSource rest) :
    source fuel (ws ++ rest) = some ((), rest) := by
  -- along the source, as for expressions
  induction h generalizing fuel rest with
  | integer s =>
    rcases fuel with _ | fuel
    · simp at hfuel
    · exact sourceTail_of_endsSource hrest
  | @apply t args kind sources ih =>
    rcases fuel with _ | fuel
    · simp at hfuel
    · obtain ⟨hcount, hargs⟩ := argument_bounds (Nat.le_of_succ_le_succ hfuel) fun ws hws =>
        (sources ws hws).length_pos
      have hlist := arguments_words (w := id) (f := fun _ => ())
        (endsSource_mark (by decide) (by decide)) (endsSource_mark (by decide) (by decide))
        (fun ws hws ts hts => ih ws hws (hargs ws hws) hts) hcount hrest.1
      rw [List.map_id] at hlist
      rw [List.cons_append, source_atomic kind,
        bind_of_eq (discard_of_eq hlist), sourceTail_of_endsSource hrest]
  | nil =>
    rcases fuel with _ | fuel
    · simp at hfuel
    · rfl
  | @list items nonempty sources ih =>
    rcases fuel with _ | fuel
    · simp at hfuel
    · have hfuel' : ([Token.mark ","].intercalate items).length ≤ fuel := by
        simp only [List.length_cons, List.length_append] at hfuel
        omega
      obtain ⟨hcount, hitems⟩ := intercalate_bounds hfuel' fun ws hws =>
        (sources ws hws).length_pos
      have hlist : separated "," (source fuel) fuel
          ([Token.mark ","].intercalate (items.map id) ++ .mark "]" :: rest) =
            some (items.map fun _ => (), .mark "]" :: rest) :=
        separated_intercalate (endsSource_mark (by decide) (by decide)) nonempty
          (fun ws hws ts hts => ih ws hws (hitems ws hws) hts) hcount
          (endsSource_mark (by decide) (by decide) rest) (notNext_cons (by decide))
      rw [List.map_id] at hlist
      -- the list is not taken for the empty one
      have hnext : NotNext "]" ([Token.mark ","].intercalate items ++ .mark "]" :: rest) :=
        notNext_intercalate nonempty (fun ws hws => (sources ws hws).notNext) _
      rw [List.cons_append, List.append_assoc, List.singleton_append, source_bracketed, bracketed,
        bind_of_eq (expect_cons "[" _), bind_of_eq (accept_of_notNext hnext), if_neg (by decide),
        bind_of_eq (discard_of_eq hlist), expect_cons]

/-- There may be no remark at all. -/
theorem annotations_of_notNext {fuel : Nat} {rest : List Token} (h : NotNext "," rest) :
    annotations fuel rest = some ((), rest) := by
  rw [annotations, bind_of_eq (accept_of_notNext h)]
  rfl

/-- A source behind a comma is taken and forgotten. -/
theorem annotations_source {ws : List Token} (h : IsSource ws) {fuel : Nat}
    (hfuel : ws.length ≤ fuel) {rest : List Token} (hrest : EndsSource rest)
    (hcomma : NotNext "," rest) :
    annotations fuel (.mark "," :: (ws ++ rest)) = some ((), rest) := by
  rw [annotations, bind_of_eq (accept_cons "," _), if_pos rfl,
    bind_of_eq (source_words h hfuel hrest), bind_of_eq (accept_of_notNext hcomma)]
  rfl

/-! ## Statements -/

/-- A word that can name a clause is parsed as its name. -/
theorem name_of_isLabel {t : Token} (h : t.isLabel = true) (ts : List Token) :
    name (t :: ts) = some (t.text, ts) := by
  cases t <;> first | rfl | cases h

theorem role_lower (s : String) (ts : List Token) : role (.lower s :: ts) = some (s, ts) := rfl

/-- The words between a clause and the closing parenthesis: none, or where the clause
comes from. -/
inductive IsRemark : List Token → Prop where
  | none : IsRemark []
  | source {ws : List Token} (isSource : IsSource ws) : IsRemark (.mark "," :: ws)

/-- Remarks are taken and forgotten. -/
theorem annotations_remark {ws : List Token} (h : IsRemark ws) {fuel : Nat}
    (hfuel : ws.length ≤ fuel) (ts : List Token) :
    annotations fuel (ws ++ .mark ")" :: ts) = some ((), .mark ")" :: ts) := by
  cases h with
  | none => exact annotations_of_notNext (notNext_cons (by decide))
  | source isSource =>
    exact annotations_source isSource (Nat.le_of_succ_le hfuel)
      (endsSource_mark (by decide) (by decide) ts) (notNext_cons (by decide))

/-- What follows a clause in a statement ends its last literal. -/
theorem IsRemark.ends {ws : List Token} (h : IsRemark ws) (ts : List Token) :
    EndsLiteral (ws ++ .mark ")" :: ts) ∧ NotNext "|" (ws ++ .mark ")" :: ts) := by
  cases h with
  | none | source isSource =>
    exact ⟨⟨notNext_cons (by decide), notNext_cons (by decide), notNext_cons (by decide)⟩,
      notNext_cons (by decide)⟩

end Parser

open Clausal.Problem.Parser

/-- The words of an annotated clause. -/
def statementWords (name : Token) (role : String) (ls : List LiteralExpr) (remark : List Token) :
    List Token :=
  .lower "cnf" :: .mark "(" :: name :: .mark "," :: .lower role :: .mark "," ::
    (clauseWords ls ++ (remark ++ [.mark ")", .fullStop]))

/-- **Statements are parsed back.** The clause comes out with its name, and what is said
about its origin leaves no trace. -/
theorem Item.parse?_statementWords {name : Token} (hname : name.isLabel = true) (role : String)
    {ls : List LiteralExpr} (hne : ls ≠ []) (h : ∀ l ∈ ls, l.WellSpelled)
    (hequations : ∀ l ∈ ls, ∀ lhs rhs, l ≠ .negative (.equation lhs rhs)) {remark : List Token}
    (hremark : IsRemark remark) :
    Item.parse? (statementWords name role ls remark) = some (.clause name.text ls) := by
  -- one bound serves all parsers, and no part has more words than the whole
  generalize hfuel : (statementWords name role ls remark).length = fuel
  have hclause : (clauseWords ls).length ≤ fuel + 1 := by
    simp only [statementWords, List.length_cons, List.length_append] at hfuel
    omega
  have hlength : remark.length ≤ fuel + 1 := by
    simp only [statementWords, List.length_cons, List.length_append] at hfuel
    omega
  obtain ⟨hends, hbar⟩ := hremark.ends [.fullStop]
  have hannotated : annotated (Parser.clause (fuel + 1)) (fuel + 1)
      (statementWords name role ls remark).tail = some ((name.text, ls), []) := by
    rw [statementWords, List.tail_cons, annotated, bind_of_eq (expect_cons "(" _),
      bind_of_eq (name_of_isLabel hname _), bind_of_eq (expect_cons "," _),
      bind_of_eq (discard_of_eq (role_lower role _)), bind_of_eq (expect_cons "," _),
      bind_of_eq (clause_words hne h hequations hclause hends hbar),
      bind_of_eq (annotations_remark hremark hlength _), bind_of_eq (expect_cons ")" _)]
    rfl
  have hitem : ∀ spelling, item (fuel + 1) spelling (statementWords name role ls remark) =
      some (.clause name.text ls, []) := by
    intro spelling
    have hnext : next (statementWords name role ls remark) =
        some (.lower "cnf", (statementWords name role ls remark).tail) := rfl
    rw [item, bind_of_eq hnext]
    exact bind_of_eq hannotated
  rw [Item.parse?, hfuel, hitem]

end Clausal.Problem
