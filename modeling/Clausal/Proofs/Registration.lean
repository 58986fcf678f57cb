/-
What reading adds to a signature. A formula mentions variables, function symbols and
predicate symbols, where an application mentions its own symbol behind everything that its
arguments mention (`Expr.mentions`). Reading a formula gives numbers to what it mentions, in
this order, each thing where it first occurs, and changes nothing else.

A reserved word has no number. Where one stands for a term or an atom, reading stops, and
what has been mentioned until then stays registered. `Expr.FirstReserved` says which
reserved word this is, and what is mentioned in front of it, without any reference to
reading: everything to its left is plain, and everything around it is an application that
is not complete at that place.

So a computation inside a clause does one of two things, from any scope: it registers a list
of mentions and succeeds (`Registers`), or it registers a list of mentions and fails
(`Refuses`). Which of them happens, with which list and which error, is read off the formula
(`run_readClause_of_plain`, `run_readClause_of_firstReservedIn`) and not off the signature.
-/
import Clausal.Proofs.PlainClauses
import Clausal.Proofs.ScopeInvariants

set_option autoImplicit false

namespace Clausal.Problem

/-! ## Mentions -/

/-- Something that a formula mentions by name. -/
inductive Mention where
  | var (name : String)
  | function (s : Symbol)
  | predicate (s : Symbol)
deriving DecidableEq

/-- Gives a number to what is mentioned. A variable gets a new one, a symbol only if it has
none yet. -/
def Mention.register (σ : Signature) : Mention → Signature
  | .var name => (σ.addVariable name).2
  | .function s => (σ.internFunction s).2
  | .predicate s => (σ.internPredicate s).2

/-- Registers the mentions of one clause, each where it first occurs. -/
def registerAll (σ : Signature) (ms : List Mention) : Signature :=
  ms.eraseDups.foldl Mention.register σ

namespace Expr

mutual

/-- What a term mentions. A reserved word is nothing that could be registered, nor is what
belongs to it. -/
def mentions : Expr → List Mention
  | .var name => [.var name]
  | .apply name args => mentionsList args ++ [.function ⟨name, args.length⟩]
  | .constant spelling => [.function ⟨spelling, 0⟩]
  | .reserved _ _ => []

def mentionsList : List Expr → List Mention
  | [] => []
  | e :: es => e.mentions ++ mentionsList es

end

/-- The list half is a concatenation over the expressions. -/
theorem mentionsList_eq (es : List Expr) : mentionsList es = es.flatMap mentions := by
  induction es with
  | nil => rfl
  | cons e es ih => rw [mentionsList, ih, List.flatMap_cons]

/-- A symbol is mentioned after all that its arguments mention. -/
theorem mentions_apply (name : String) (args : List Expr) :
    (apply name args).mentions = args.flatMap mentions ++ [.function ⟨name, args.length⟩] := by
  rw [mentions, mentionsList_eq]

/-- Induction on a term that stops at reserved words. -/
@[elab_as_elim]
theorem plain_induction {motive : Expr → Prop} (var : ∀ name, motive (.var name))
    (apply : ∀ name args, (∀ e ∈ args, motive e) → motive (.apply name args))
    (constant : ∀ spelling, motive (.constant spelling))
    (reserved : ∀ name args, motive (.reserved name args)) (e : Expr) : motive e :=
  match e with
  | .var name => var name
  | .apply name args => apply name args fun a _ => plain_induction var apply constant reserved a
  | .constant spelling => constant spelling
  | .reserved name args => reserved name args
termination_by sizeOf e
decreasing_by
  have := List.sizeOf_lt_of_mem ‹a ∈ args›
  simp only [Expr.apply.sizeOf_spec]
  omega

end Expr

/-- What an atom mentions, in the order in which it is read; an equation has no symbol to
register. -/
def AtomExpr.mentions : AtomExpr → List Mention
  | .plain name args => args.flatMap Expr.mentions ++ [.predicate ⟨name, args.length⟩]
  | .reserved _ _ => []
  | .equation lhs rhs => lhs.mentions ++ rhs.mentions

/-- The atom that a literal asserts or denies. -/
def LiteralExpr.atom : LiteralExpr → AtomExpr
  | .positive a | .negative a => a
  | .inequation lhs rhs => .equation lhs rhs

/-- What a literal mentions is what its atom does. -/
def LiteralExpr.mentions (l : LiteralExpr) : List Mention := l.atom.mentions

/-- The atom of a plain literal is plain, that of a denied equation among them. -/
theorem LiteralExpr.Plain.atom {l : LiteralExpr} (h : l.Plain) : l.atom.Plain := by
  cases h with
  | positive atom => exact atom
  | negative atom => exact atom
  | inequation left right => exact .equation left right

/-! ## The first reserved word -/

/-- The term `found` is the first reserved one of an expression, the outermost of those that
begin furthest to the left, and `before` is what is mentioned to the left of it. -/
inductive Expr.FirstReserved : Expr → List Mention → Expr → Prop where
  | here (name : String) (args : List Expr) :
    FirstReserved (.reserved name args) [] (.reserved name args)
  /-- It stands in an argument, and all earlier arguments are plain. -/
  | argument {name : String} {left right : List Expr} {e found : Expr} {before : List Mention}
    (left_plain : ∀ l ∈ left, l.Plain) (inside : FirstReserved e before found) :
    FirstReserved (.apply name (left ++ e :: right)) (left.flatMap Expr.mentions ++ before) found

/-- The complaint is about the first reserved word of an atom, which may be the atom
itself. -/
inductive AtomExpr.FirstReserved : AtomExpr → List Mention → ReadError → Prop where
  | here (name : String) (args : List Expr) :
    FirstReserved (.reserved name args) [] (.reservedAtom (Expr.reserved name args).text)
  | argument {name : String} {left right : List Expr} {e found : Expr} {before : List Mention}
    (left_plain : ∀ l ∈ left, l.Plain) (inside : e.FirstReserved before found) :
    FirstReserved (.plain name (left ++ e :: right)) (left.flatMap Expr.mentions ++ before)
      (.reservedTerm found.text)
  | left {lhs rhs found : Expr} {before : List Mention} (inside : lhs.FirstReserved before found) :
    FirstReserved (.equation lhs rhs) before (.reservedTerm found.text)
  | right {lhs rhs found : Expr} {before : List Mention} (left_plain : lhs.Plain)
    (inside : rhs.FirstReserved before found) :
    FirstReserved (.equation lhs rhs) (lhs.mentions ++ before) (.reservedTerm found.text)

/-- The complaint is about the first reserved word of a clause. -/
inductive FirstReservedIn : List LiteralExpr → List Mention → ReadError → Prop where
  | literal {left right : List LiteralExpr} {l : LiteralExpr} {before : List Mention}
    {e : ReadError} (left_plain : ∀ m ∈ left, m.Plain) (inside : l.atom.FirstReserved before e) :
    FirstReservedIn (left ++ l :: right) (left.flatMap LiteralExpr.mentions ++ before) e

/-- All of the list is plain, or there is a first entry that is not. -/
theorem forall_or_exists_first {α : Type} {P Q : α → Prop} {l : List α}
    (h : ∀ a ∈ l, P a ∨ Q a) :
    (∀ a ∈ l, P a) ∨ ∃ left a right, l = left ++ a :: right ∧ (∀ b ∈ left, P b) ∧ Q a := by
  induction l with
  | nil => exact .inl fun a ha => absurd ha List.not_mem_nil
  | cons a l ih =>
    rw [List.forall_mem_cons] at h
    rcases h.1 with ha | ha
    · rcases ih h.2 with hl | ⟨left, b, right, rfl, hleft, hb⟩
      · exact .inl (List.forall_mem_cons.2 ⟨ha, hl⟩)
      · exact .inr ⟨a :: left, b, right, rfl, List.forall_mem_cons.2 ⟨ha, hleft⟩, hb⟩
    · exact .inr ⟨[], a, l, rfl, fun b hb => absurd hb List.not_mem_nil, ha⟩

/-- An expression is plain, or there is a reserved name in it that comes first. -/
theorem Expr.plain_or_firstReserved (e : Expr) :
    e.Plain ∨ ∃ before found, e.FirstReserved before found := by
  induction e using Expr.plain_induction with
  | var name => exact .inl (.var name)
  | apply name args ih =>
    rcases forall_or_exists_first ih with hargs | ⟨left, e, right, rfl, hleft, before, found, he⟩
    · exact .inl (.apply hargs)
    · exact .inr ⟨_, found, .argument hleft he⟩
  | constant spelling => exact .inl (.constant spelling)
  | reserved name args => exact .inr ⟨[], _, .here name args⟩

/-- The same for atoms, where a reserved predicate comes before its arguments. -/
theorem AtomExpr.plain_or_firstReserved (a : AtomExpr) :
    a.Plain ∨ ∃ before e, a.FirstReserved before e := by
  cases a with
  | plain name args =>
    rcases forall_or_exists_first fun e (_ : e ∈ args) => e.plain_or_firstReserved with
      hargs | ⟨left, e, right, rfl, hleft, before, found, he⟩
    · exact .inl (.plain hargs)
    · exact .inr ⟨_, _, .argument hleft he⟩
  | reserved name args => exact .inr ⟨[], _, .here name args⟩
  | equation lhs rhs =>
    rcases lhs.plain_or_firstReserved with hl | ⟨before, found, hl⟩
    · rcases rhs.plain_or_firstReserved with hr | ⟨before, found, hr⟩
      · exact .inl (.equation hl hr)
      · exact .inr ⟨_, _, .right hl hr⟩
    · exact .inr ⟨before, _, .left hl⟩

/-- The same for literals. -/
theorem LiteralExpr.plain_or_firstReserved (l : LiteralExpr) :
    l.Plain ∨ ∃ before e, l.atom.FirstReserved before e := by
  refine l.atom.plain_or_firstReserved.imp_left fun h => ?_
  match l, h with
  | .positive a, h => exact .positive h
  | .negative a, h => exact .negative h
  | .inequation lhs rhs, .equation left right => exact .inequation left right

/-- A clause is plain, or there is something to complain about. -/
theorem plain_or_firstReservedIn (ls : List LiteralExpr) :
    (∀ l ∈ ls, l.Plain) ∨ ∃ before e, FirstReservedIn ls before e := by
  rcases forall_or_exists_first fun l (_ : l ∈ ls) => l.plain_or_firstReserved with
    hls | ⟨left, l, right, rfl, hleft, before, e, hl⟩
  · exact .inl hls
  · exact .inr ⟨_, e, .literal hleft hl⟩

/-! ## Registering inside a clause -/

namespace Scope

/-- Registers a mention inside a clause, where a variable that has occurred has a number. -/
def register (s : Scope) : Mention → Scope
  | .var name => (s.resolve name).2
  | .function r => { s with signature := (s.signature.internFunction r).2 }
  | .predicate r => { s with signature := (s.signature.internPredicate r).2 }

/-- Everything on the list has been registered, and no other variable is bound. -/
structure Knows (s : Scope) (seen : List Mention) : Prop where
  var : ∀ name, .var name ∈ seen ↔ (s.bound.lookup name).isSome
  function : ∀ r, .function r ∈ seen → (s.signature.functions.find? r).isSome
  predicate : ∀ r, .predicate r ∈ seen → (s.signature.predicates.find? r).isSome

/-- A clause has no variables to begin with. -/
theorem knows_start (σ : Signature) : Knows ⟨σ, []⟩ [] where
  var name := by simp
  function r h := absurd h List.not_mem_nil
  predicate r h := absurd h List.not_mem_nil

end Scope

end Clausal.Problem

namespace Clausal.SymbolTable

variable {t : SymbolTable} {s r : Symbol}

/-- Interning a known symbol changes nothing. -/
theorem intern_of_isSome (h : (t.find? s).isSome) : (t.intern s).2 = t := by
  obtain ⟨id, hid⟩ := Option.isSome_iff_exists.1 h
  rw [SymbolTable.intern, hid]

/-- A symbol is found after it has been interned, and every other one as before. -/
theorem isSome_find?_intern (h : r = s ∨ (t.find? r).isSome) : ((t.intern s).2.find? r).isSome := by
  rcases hs : t.find? s with _ | id
  · have hintern : (t.intern s).2 = (t.add s).2 := by rw [SymbolTable.intern, hs]
    rw [hintern, find?_add hs]
    split
    · rfl
    · next hne => exact h.resolve_left hne
  · rw [intern_of_isSome (by rw [hs]; rfl)]
    rcases h with rfl | h
    · rw [hs]; rfl
    · exact h

end Clausal.SymbolTable

namespace Clausal.Problem

namespace Scope

variable {s : Scope} {seen : List Mention}

/-- What has been registered is not registered again. -/
theorem Knows.register_of_mem (h : s.Knows seen) {m : Mention} (hm : m ∈ seen) :
    s.register m = s := by
  cases m with
  | var name =>
    obtain ⟨x, hx⟩ := Option.isSome_iff_exists.1 ((h.var name).1 hm)
    rw [register, resolve_of_eq_some hx]
  | function r =>
    have hkeep := SymbolTable.intern_of_isSome (h.function r hm)
    exact congrArg (fun t => Scope.mk { s.signature with functions := t } s.bound) hkeep
  | predicate r =>
    have hkeep := SymbolTable.intern_of_isSome (h.predicate r hm)
    exact congrArg (fun t => Scope.mk { s.signature with predicates := t } s.bound) hkeep

/-- The first mention of something acts on the signature alone. -/
theorem Knows.signature_register (h : s.Knows seen) {m : Mention} (hm : m ∉ seen) :
    (s.register m).signature = m.register s.signature := by
  cases m with
  | var name =>
    have hnone : s.bound.lookup name = none := by
      rwa [h.var, Bool.not_eq_true, Option.isSome_eq_false_iff, Option.isNone_iff_eq_none] at hm
    rw [register, resolve_of_eq_none hnone]
    rfl
  | function r => rfl
  | predicate r => rfl

/-- What has been registered is known from then on. -/
theorem Knows.register (h : s.Knows seen) (m : Mention) : (s.register m).Knows (m :: seen) := by
  cases m with
  -- a new variable is bound, and nothing else changes
  | var name =>
    rcases hlookup : s.bound.lookup name with _ | x
    · rw [Scope.register, resolve_of_eq_none hlookup]
      refine ⟨fun other => ?_, fun r hr => ?_, fun r hr => ?_⟩
      · rw [List.mem_cons, h.var, Mention.var.injEq, List.lookup_append, List.lookup_cons,
          List.lookup_nil, Option.isSome_or, Bool.or_eq_true, Or.comm]
        refine or_congr_right ?_
        rcases eq_or_ne other name with rfl | hne
        · simp
        · simp [hne, beq_false_of_ne hne]
      · exact h.function r (by simpa using hr)
      · exact h.predicate r (by simpa using hr)
    -- a known variable changes nothing at all
    · rw [h.register_of_mem ((h.var name).2 (by rw [hlookup]; rfl))]
      refine ⟨fun other => ?_, fun r hr => ?_, fun r hr => ?_⟩
      · rw [List.mem_cons, h.var, Mention.var.injEq, or_iff_right_iff_imp]
        rintro rfl
        rw [hlookup]; rfl
      · exact h.function r (by simpa using hr)
      · exact h.predicate r (by simpa using hr)
  | function r =>
    refine ⟨fun other => ?_, fun q hq => ?_, fun q hq => ?_⟩
    · rw [List.mem_cons, or_iff_right (nofun)]
      exact h.var other
    · refine SymbolTable.isSome_find?_intern ?_
      rw [List.mem_cons, Mention.function.injEq] at hq
      exact hq.imp_right (h.function q)
    · exact h.predicate q (by simpa using hq)
  | predicate r =>
    refine ⟨fun other => ?_, fun q hq => ?_, fun q hq => ?_⟩
    · rw [List.mem_cons, or_iff_right (nofun)]
      exact h.var other
    · exact h.function q (by simpa using hq)
    · refine SymbolTable.isSome_find?_intern ?_
      rw [List.mem_cons, Mention.predicate.injEq] at hq
      exact hq.imp_right (h.predicate q)

/-- From a scope that knows the list, only the first occurrences of other mentions count. -/
theorem Knows.signature_foldl_register (h : s.Knows seen) (ms : List Mention) :
    (ms.foldl Scope.register s).signature =
      registerAll s.signature (ms.filter (· ∉ seen)) := by
  induction ms generalizing s seen with
  | nil => rfl
  | cons m ms ih =>
    rw [List.foldl_cons]
    by_cases hm : m ∈ seen
    · rw [h.register_of_mem hm, ih h, List.filter_cons_of_neg (by simpa using hm)]
    · rw [ih (h.register m), h.signature_register hm, List.filter_cons_of_pos (by simpa using hm),
        registerAll, registerAll, List.eraseDups_cons, List.foldl_cons, List.filter_filter]
      congr 3
      funext k
      simp only [List.mem_cons, not_or, Bool.decide_and, decide_not, beq_eq_decide]

/-- **Registering inside a clause** gives everything one number, where it first occurs. -/
theorem signature_foldl_register (σ : Signature) (ms : List Mention) :
    (ms.foldl Scope.register ⟨σ, []⟩).signature = registerAll σ ms := by
  rw [(knows_start σ).signature_foldl_register]
  congr 1
  exact List.filter_eq_self.2 fun m _ => by simp

end Scope

/-! ## Reading registers -/

section

variable {α β : Type} {m : InClause α} {ms ns : List Mention} {Q : α → Prop} {P : β → Prop}
  {e : ReadError}

/-- From every scope the computation registers the mentions and succeeds; what it returns
passes the condition. -/
def Registers (m : InClause α) (ms : List Mention) (Q : α → Prop) : Prop :=
  ∀ s : Scope, ∃ a, m.run s = (.ok a, ms.foldl Scope.register s) ∧ Q a

/-- From every scope the computation registers the mentions and then fails. -/
def Refuses (m : InClause α) (ms : List Mention) (e : ReadError) : Prop :=
  ∀ s : Scope, m.run s = (.error e, ms.foldl Scope.register s)

/-- Returning a value registers nothing. -/
theorem registers_pure {a : α} (h : Q a) : Registers (pure a) [] Q := fun _ => ⟨a, rfl, h⟩

/-- One after the other: the second registers what it mentions behind what the first does. -/
theorem Registers.bind {f : α → InClause β} (hm : Registers m ms Q)
    (hf : ∀ a, Q a → Registers (f a) ns P) : Registers (m >>= f) (ms ++ ns) P := by
  intro s
  obtain ⟨a, hrun, ha⟩ := hm s
  rw [run_bind, hrun, List.foldl_append]
  exact hf a ha _

/-- What is done to a result registers nothing. -/
theorem Registers.map {f : α → β} (hm : Registers m ms Q) (hf : ∀ a, Q a → P (f a)) :
    Registers (f <$> m) ms P := by
  rw [← bind_pure_comp, ← List.append_nil ms]
  exact hm.bind fun a ha => registers_pure (hf a ha)

/-- A failure after a success. -/
theorem Registers.bind_refuses {f : α → InClause β} (hm : Registers m ms Q)
    (hf : ∀ a, Q a → Refuses (f a) ns e) : Refuses (m >>= f) (ms ++ ns) e := by
  intro s
  obtain ⟨a, hrun, ha⟩ := hm s
  rw [run_bind, hrun, List.foldl_append]
  exact hf a ha _

/-- What comes after a failure does not matter. -/
theorem Refuses.bind (hm : Refuses m ms e) (f : α → InClause β) : Refuses (m >>= f) ms e := by
  intro s
  rw [run_bind, hm s]

theorem Refuses.map (hm : Refuses m ms e) (f : α → β) : Refuses (f <$> m) ms e := by
  rw [← bind_pure_comp]
  exact hm.bind _

/-- Entries that are read one after the other. -/
theorem registers_mapM {f : α → InClause β} {mentions : α → List Mention} {as : List α}
    (h : ∀ a ∈ as, Registers (f a) (mentions a) fun _ => True) :
    Registers (as.mapM f) (as.flatMap mentions) fun bs => bs.length = as.length := by
  induction as with
  | nil => exact registers_pure rfl
  | cons a as ih =>
    rw [List.forall_mem_cons] at h
    rw [List.mapM_cons, List.flatMap_cons]
    exact h.1.bind fun b _ => (ih h.2).map fun bs hbs => congrArg (· + 1) hbs

/-- The first entry that fails ends the reading. -/
theorem refuses_mapM {f : α → InClause β} {mentions : α → List Mention} {left right : List α}
    {a : α} (hleft : ∀ b ∈ left, Registers (f b) (mentions b) fun _ => True)
    (ha : Refuses (f a) ms e) :
    Refuses ((left ++ a :: right).mapM f) (left.flatMap mentions ++ ms) e := by
  rw [List.mapM_append, List.mapM_cons]
  exact (registers_mapM hleft).bind_refuses fun _ _ => (ha.bind _).bind _

/-- A change of the scope that is the registration of one mention. -/
theorem registers_modifyGet {f : Scope → α × Scope} {m : Mention}
    (hf : ∀ s, (f s).2 = s.register m) : Registers (modifyGet f) [m] fun _ => True :=
  fun s => ⟨(f s).1, congrArg (Prod.mk _) (hf s), trivial⟩

end

theorem Expr.readList_eq_mapM (es : List Expr) : readList es = es.mapM read := by
  induction es with
  | nil => rfl
  | cons e es ih => rw [List.mapM_cons, readList, ih]

theorem readLiterals_eq_mapM (ls : List LiteralExpr) :
    readLiterals ls = ls.mapM LiteralExpr.read := by
  induction ls with
  | nil => rfl
  | cons l ls ih => rw [List.mapM_cons, readLiterals, ih]

/-- **A plain expression is read**, and what it mentions is registered. -/
theorem Expr.Plain.registers {e : Expr} (h : e.Plain) :
    Registers e.read e.mentions fun _ => True := by
  induction h with
  | var name => exact registers_modifyGet fun _ => rfl
  | @apply name args _ ih =>
    rw [Expr.read, readList_eq_mapM, mentions_apply]
    refine (registers_mapM ih).bind fun ts hts => registers_modifyGet fun s => ?_
    rw [← hts]
    rfl
  | constant spelling => exact registers_modifyGet fun _ => rfl

/-- Plain expressions are read one after the other, and as many terms are returned. -/
theorem registers_readList {es : List Expr} (h : ∀ e ∈ es, e.Plain) :
    Registers (Expr.readList es) (es.flatMap Expr.mentions) fun ts => ts.length = es.length := by
  rw [Expr.readList_eq_mapM]
  exact registers_mapM fun e he => (h e he).registers

/-- A plain atom is read, and what it mentions is registered. -/
theorem AtomExpr.Plain.registers {a : AtomExpr} (h : a.Plain) :
    Registers a.read a.mentions fun _ => True := by
  cases h with
  | @plain name args args_plain =>
    refine (registers_readList args_plain).bind fun ts hts => registers_modifyGet fun s => ?_
    rw [← hts]
    rfl
  | equation left right =>
    -- equality has its number from the beginning, and is not registered
    exact left.registers.bind fun _ _ => right.registers.map fun _ _ => trivial

/-- A literal is read as its atom, and then asserted or denied. -/
theorem LiteralExpr.exists_read_eq (l : LiteralExpr) :
    ∃ sign : Atom → Literal, l.read = sign <$> l.atom.read := by
  cases l with
  | positive a => exact ⟨Literal.pos, rfl⟩
  | negative a => exact ⟨Literal.neg, rfl⟩
  | inequation lhs rhs => exact ⟨Literal.neg, rfl⟩

/-- A plain literal is read, and what it mentions is registered. -/
theorem LiteralExpr.Plain.registers {l : LiteralExpr} (h : l.Plain) :
    Registers l.read l.mentions fun _ => True := by
  obtain ⟨sign, hread⟩ := l.exists_read_eq
  rw [hread]
  exact h.atom.registers.map fun _ _ => trivial

/-- **Plain literals are read**, and all that they mention is registered. -/
theorem registers_readLiterals {ls : List LiteralExpr} (h : ∀ l ∈ ls, l.Plain) :
    Registers (readLiterals ls) (ls.flatMap LiteralExpr.mentions) fun ms =>
      ms.length = ls.length := by
  rw [readLiterals_eq_mapM]
  exact registers_mapM fun l hl => (h l hl).registers

/-! ## Reading refuses -/

/-- **An expression with a reserved name is refused** for the first one, and what comes before it
has been registered. -/
theorem Expr.FirstReserved.refuses {e found : Expr} {before : List Mention}
    (h : e.FirstReserved before found) : Refuses e.read before (.reservedTerm found.text) := by
  induction h with
  | here name args => exact fun s => rfl
  | argument left_plain _ ih =>
    rw [Expr.read, readList_eq_mapM]
    exact (refuses_mapM (fun l hl => (left_plain l hl).registers) ih).bind _

/-- The same for atoms, for a reserved predicate or a reserved name in an argument. -/
theorem AtomExpr.FirstReserved.refuses {a : AtomExpr} {before : List Mention} {e : ReadError}
    (h : a.FirstReserved before e) : Refuses a.read before e := by
  cases h with
  | here name args => exact fun s => rfl
  | argument left_plain inside =>
    rw [AtomExpr.read, Expr.readList_eq_mapM]
    exact (refuses_mapM (fun l hl => (left_plain l hl).registers) inside.refuses).bind _
  | left inside => exact inside.refuses.bind _
  | right left_plain inside =>
    exact left_plain.registers.bind_refuses fun _ _ => inside.refuses.bind _

/-- **The first reserved word ends the reading**, when what stands before it has been
registered. -/
theorem FirstReservedIn.refuses {ls : List LiteralExpr} {before : List Mention} {e : ReadError}
    (h : FirstReservedIn ls before e) : Refuses (readLiterals ls) before e := by
  obtain ⟨left_plain, inside⟩ := h
  rw [readLiterals_eq_mapM]
  refine refuses_mapM (fun l hl => (left_plain l hl).registers) ?_
  obtain ⟨sign, hread⟩ := LiteralExpr.exists_read_eq _
  rw [hread]
  exact inside.refuses.map _

/-! ## Clauses -/

section

variable {ls : List LiteralExpr} (name : String) (σ : Signature)

/-- A plain clause is read, and the signature has what it mentions, each of this once. -/
theorem run_readClause_of_plain (h : ∀ l ∈ ls, l.Plain) :
    ∃ c, (readClause name ls).run σ = (.ok c, registerAll σ (ls.flatMap LiteralExpr.mentions)) := by
  obtain ⟨ms, hrun, -⟩ := registers_readLiterals h ⟨σ, []⟩
  refine ⟨Clause.make ms (.named name), ?_⟩
  rw [← Scope.signature_foldl_register]
  show (((readLiterals ls).run ⟨σ, []⟩).1.map _, ((readLiterals ls).run ⟨σ, []⟩).2.signature) = _
  rw [hrun]
  rfl

/-- A clause with a reserved name is refused, and the signature has what comes before this. -/
theorem run_readClause_of_firstReservedIn {before : List Mention} {e : ReadError}
    (h : FirstReservedIn ls before e) :
    (readClause name ls).run σ = (.error e, registerAll σ before) := by
  rw [← Scope.signature_foldl_register]
  show (((readLiterals ls).run ⟨σ, []⟩).1.map _, ((readLiterals ls).run ⟨σ, []⟩).2.signature) = _
  rw [h.refuses ⟨σ, []⟩]
  rfl

end

end Clausal.Problem
