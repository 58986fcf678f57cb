/-
Clauses say what their items say. When every number of a clause that has been read is
replaced by its name, what is left are the literals of the item in their order, without the
later ones of literals that are spelled alike; and equal numbers stand for equal spellings
only, of variables as well as of symbols with their number of arguments
(`Problem.readClause_faithful`). Nothing is asked of the signature but that looking a symbol
up finds its first number, so a symbol may have several numbers in it.

Two things can be lost on the way: a name can change its meaning while later parts of the
clause are read, and two names can get one number. Against the first, reading on keeps all
that a scope knows (`Scope.Keeps`). Against the second, the numbers in what has been read
are those under which the scope finds the names (`Term.Known`), so that terms of equal names
are equal (`Term.Known.eq_of_byName_eq`). This is also why dropping repeated literals can be
exchanged with replacing numbers by names.
-/
import Clausal.Files.Directory
import Clausal.Proofs.FirstOccurrences
import Clausal.Proofs.PlainClauses
import Clausal.Proofs.Preorder
import Clausal.Proofs.RoundTrip
import Clausal.Proofs.ScopeInvariants

set_option autoImplicit false

namespace Clausal

open Problem

/-! ## Names in the place of numbers -/

/-- A term with names in the place of numbers, where a number may have none. -/
inductive NamedTerm where
  | var (name : Option String)
  | app (symbol : Option Symbol) (args : List NamedTerm)
deriving Inhabited

namespace NamedTerm

mutual

/-- Equality of named terms is decided along the first of them. -/
def decEq : (s t : NamedTerm) → Decidable (s = t)
  | .var x, .var y =>
    if h : x = y then isTrue (congrArg NamedTerm.var h) else isFalse fun e => h (var.inj e)
  | .var _, .app _ _ => isFalse NamedTerm.noConfusion
  | .app _ _, .var _ => isFalse NamedTerm.noConfusion
  | .app f ss, .app g ts =>
    if h : f = g then
      match decEqList ss ts with
      | isTrue h' => isTrue (h ▸ h' ▸ rfl)
      | isFalse h' => isFalse fun e => h' (app.inj e).2
    else isFalse fun e => h (app.inj e).1

def decEqList : (ss ts : List NamedTerm) → Decidable (ss = ts)
  | [], [] => isTrue rfl
  | [], t :: ts => isFalse (List.cons_ne_nil t ts).symm
  | s :: ss, [] => isFalse (List.cons_ne_nil s ss)
  | s :: ss, t :: ts =>
    match decEq s t with
    | isFalse h => isFalse fun e => h (List.cons.inj e).1
    | isTrue h =>
      match decEqList ss ts with
      | isFalse h' => isFalse fun e => h' (List.cons.inj e).2
      | isTrue h' => isTrue (h ▸ h' ▸ rfl)

end

instance : DecidableEq NamedTerm := decEq

end NamedTerm

/-- An atom with names in the place of numbers. -/
structure NamedAtom where
  predicate : Option Symbol
  args : List NamedTerm
deriving DecidableEq

/-- A literal with names in the place of numbers. -/
structure NamedLiteral where
  negated : Bool
  atom : NamedAtom
deriving DecidableEq

namespace Term

mutual

/-- The term by the names that its numbers have. -/
def byName (σ : Signature) : Term → NamedTerm
  | .var x => .var (σ.variableName? x)
  | .app f args => .app (σ.functionSymbol? f) (byNameList σ args)

def byNameList (σ : Signature) : List Term → List NamedTerm
  | [] => []
  | t :: ts => t.byName σ :: byNameList σ ts

end

/-- The list half is a map. -/
theorem byNameList_eq (σ : Signature) (ts : List Term) : byNameList σ ts = ts.map (byName σ) := by
  induction ts with
  | nil => rfl
  | cons t ts ih => rw [byNameList, ih, List.map_cons]

/-- An application by its names, with the arguments as a map. -/
theorem byName_app (σ : Signature) (f : Nat) (args : List Term) :
    (app f args).byName σ = .app (σ.functionSymbol? f) (args.map (byName σ)) := by
  rw [byName, byNameList_eq]

end Term

/-- The atom by the names that its numbers have. -/
def Atom.byName (σ : Signature) (a : Atom) : NamedAtom :=
  ⟨σ.predicateSymbol? a.pred, a.args.map (Term.byName σ)⟩

/-- The literal by the names that its numbers have. -/
def Literal.byName (σ : Signature) (l : Literal) : NamedLiteral := ⟨l.negated, l.atom.byName σ⟩

namespace Problem

namespace Expr

mutual

/-- The term by the names that are written. -/
def byName : Expr → NamedTerm
  | .var name => .var (some name)
  | .apply name args | .reserved name args => .app (some ⟨name, args.length⟩) (byNameList args)
  | .constant spelling => .app (some ⟨spelling, 0⟩) []

def byNameList : List Expr → List NamedTerm
  | [] => []
  | e :: es => e.byName :: byNameList es

end

/-- The list half is a map. -/
theorem byNameList_eq (es : List Expr) : byNameList es = es.map byName := by
  induction es with
  | nil => rfl
  | cons e es ih => rw [byNameList, ih, List.map_cons]

/-- An application by its names, with the arguments as a map. -/
theorem byName_apply (name : String) (args : List Expr) :
    (apply name args).byName = .app (some ⟨name, args.length⟩) (args.map byName) := by
  rw [byName, byNameList_eq]

end Expr

/-- The atom by the names that are written; an equation is an atom of equality. -/
def AtomExpr.byName : AtomExpr → NamedAtom
  | .plain name args | .reserved name args => ⟨some ⟨name, args.length⟩, args.map Expr.byName⟩
  | .equation lhs rhs => ⟨some ⟨"=", 2⟩, [lhs.byName, rhs.byName]⟩

/-- The literal by the names that are written; a denied equation is a negated one. -/
def LiteralExpr.byName : LiteralExpr → NamedLiteral
  | .positive a => ⟨false, a.byName⟩
  | .negative a => ⟨true, a.byName⟩
  | .inequation lhs rhs => ⟨true, (AtomExpr.equation lhs rhs).byName⟩

end Problem

/-! ## Interning -/

namespace SymbolTable

variable {t : SymbolTable} {s r : Symbol}

/-- After interning, symbols are still found under their first numbers. -/
theorem Indexed.intern (h : t.Indexed) (s : Symbol) : (t.intern s).2.Indexed := by
  unfold SymbolTable.intern
  split
  · exact h
  · exact h.add s

/-- Interning leaves first numbers as they are, since new entries come behind the old ones. -/
theorem IsFirst.intern {id : Nat} (h : t.IsFirst r id) (s : Symbol) :
    (t.intern s).2.IsFirst r id := by
  unfold SymbolTable.intern
  split
  · exact h
  · exact h.add s

/-- The number given to a symbol is its first one. -/
theorem Indexed.isFirst_intern (h : t.Indexed) (s : Symbol) :
    (t.intern s).2.IsFirst s (t.intern s).1 := by
  unfold SymbolTable.intern
  split
  · next id hs => exact (h s id).1 hs
  · next hs => exact isFirst_add (h.get?_ne_of_find? hs)

/-- Two first numbers are equal exactly if their symbols are. -/
theorem IsFirst.eq_iff {i j : Nat} (hi : t.IsFirst s i) (hj : t.IsFirst r j) :
    i = j ↔ s = r := by
  constructor
  · rintro rfl
    exact Option.some.inj (hi.get?_eq.symm.trans hj.get?_eq)
  · rintro rfl
    exact hi.unique hj

end SymbolTable

/-! ## Scopes -/

namespace Problem.Scope

/-- Symbols are found under their first numbers, and variables of the clause under numbers
that have their names. -/
structure Sound (s : Scope) : Prop where
  indexed : s.signature.Indexed
  variableName?_eq : ∀ {name : String} {x : Nat}, s.bound.lookup name = some x →
    s.signature.variableName? x = some name

/-- What the first scope finds the second one finds under the same number. -/
structure Keeps (s s' : Scope) : Prop where
  bound : ∀ {name : String} {x : Nat}, s.bound.lookup name = some x →
    s'.bound.lookup name = some x
  functions : ∀ {r : Symbol} {f : Nat}, s.signature.functions.IsFirst r f →
    s'.signature.functions.IsFirst r f
  predicates : ∀ {r : Symbol} {p : Nat}, s.signature.predicates.IsFirst r p →
    s'.signature.predicates.IsFirst r p

variable {s s' s'' : Scope}

/-- A scope keeps what it knows. -/
theorem Keeps.refl (s : Scope) : s.Keeps s := ⟨id, id, id⟩

/-- What is kept by two scopes in turn is kept by the second. -/
theorem Keeps.trans (h : s.Keeps s') (h' : s'.Keeps s'') : s.Keeps s'' :=
  ⟨fun hx => h'.bound (h.bound hx), fun hf => h'.functions (h.functions hf),
    fun hp => h'.predicates (h.predicates hp)⟩

/-- A clause starts without variables of its own. -/
theorem sound_start {σ : Signature} (h : σ.Indexed) : Sound ⟨σ, []⟩ := ⟨h, fun hx => nomatch hx⟩

/-- A variable is found after it has been resolved, and every other one as before. -/
theorem Sound.resolve (h : s.Sound) (name : String) :
    ∃ x s', s.resolve name = (.var x, s') ∧ s'.Sound ∧ s.Keeps s' ∧
      s'.bound.lookup name = some x := by
  rcases hlookup : s.bound.lookup name with _ | x
  -- the new name is found under the new number, and nothing else changes
  · have hfind : ∀ r, (s.bound ++ [(name, s.signature.variableNames.size)]).lookup r =
        if r = name then some s.signature.variableNames.size else s.bound.lookup r := by
      intro r
      rw [List.lookup_append]
      by_cases hr : r = name
      · rw [if_pos hr, hr, hlookup, List.lookup_cons_self]
        rfl
      · rw [if_neg hr, List.lookup_cons, beq_false_of_ne hr, List.lookup_nil, Option.or_none]
    refine ⟨_, _, resolve_of_eq_none hlookup, ⟨⟨h.indexed.functions, h.indexed.predicates,
      h.indexed.equality⟩, fun {r x} hx => ?_⟩, ⟨fun {r x} hx => ?_, id, id⟩, ?_⟩
    · -- the new number has the new name, and the others have theirs
      rw [Signature.variableName?, Signature.addVariable, Array.getElem?_push]
      rw [hfind] at hx
      split at hx
      · next hr => rw [if_pos (Option.some.inj hx).symm, hr]
      · have hname := h.variableName?_eq hx
        have hlt : x < s.signature.variableNames.size :=
          (Array.getElem?_eq_some_iff.1 hname).1
        rw [if_neg (Nat.ne_of_lt hlt)]
        exact hname
    -- a name found before is not the new one
    · have hr : r ≠ name := by
        rintro rfl
        rw [hlookup] at hx
        cases hx
      rw [hfind, if_neg hr]
      exact hx
    · rw [hfind, if_pos rfl]
  · exact ⟨x, s, resolve_of_eq_some hlookup, h, .refl s, hlookup⟩

/-- A function symbol has its first number after it has been applied. -/
theorem Sound.apply (h : s.Sound) (name : String) (args : List Term) :
    ∃ f s', s.apply name args = (.app f args, s') ∧ s'.Sound ∧ s.Keeps s' ∧
      s'.signature.functions.IsFirst ⟨name, args.length⟩ f :=
  ⟨_, _, rfl,
    ⟨⟨h.indexed.functions.intern _, h.indexed.predicates, h.indexed.equality⟩,
      h.variableName?_eq⟩,
    ⟨id, fun hf => hf.intern _, id⟩, h.indexed.functions.isFirst_intern _⟩

/-- A predicate symbol has its first number after an atom of it has been made. -/
theorem Sound.atom (h : s.Sound) (name : String) (args : List Term) :
    ∃ p s', s.atom name args = (⟨p, args⟩, s') ∧ s'.Sound ∧ s.Keeps s' ∧
      s'.signature.predicates.IsFirst ⟨name, args.length⟩ p :=
  ⟨_, _, rfl,
    ⟨⟨h.indexed.functions, h.indexed.predicates.intern _,
      s.signature.predicates.extends_intern _ h.indexed.equality⟩, h.variableName?_eq⟩,
    ⟨id, id, fun hp => hp.intern _⟩, h.indexed.predicates.isFirst_intern _⟩

/-- Equality has its number from the beginning. -/
theorem Sound.isFirst_equality (h : s.Sound) :
    s.signature.predicates.IsFirst ⟨"=", 2⟩ Atom.equality :=
  ⟨h.indexed.equality, fun k hk => absurd hk (Nat.not_lt_zero k)⟩

end Problem.Scope

/-! ## Terms that a scope knows -/

/-- The numbers in the term are those under which the scope finds their names. -/
inductive Term.Known (s : Scope) : Term → Prop where
  | var {name : String} {x : Nat} (found : s.bound.lookup name = some x) : Known s (.var x)
  | app {f : Nat} {name : String} {args : List Term}
    (first : s.signature.functions.IsFirst ⟨name, args.length⟩ f)
    (args_known : ∀ t ∈ args, Known s t) : Known s (.app f args)

/-- The predicate of the atom has its first number, and its arguments are known. -/
structure Atom.Known (s : Scope) (a : Atom) : Prop where
  first : ∃ name, s.signature.predicates.IsFirst ⟨name, a.args.length⟩ a.pred
  args_known : ∀ t ∈ a.args, t.Known s

section

variable {s s' : Scope}

/-- Reading on changes neither that a term is known nor its names. -/
theorem Term.Known.keeps (hs : s.Sound) (hs' : s'.Sound) (h : s.Keeps s') {t : Term}
    (ht : t.Known s) : t.Known s' ∧ t.byName s'.signature = t.byName s.signature := by
  induction ht with
  | var found =>
    refine ⟨.var (h.bound found), ?_⟩
    rw [byName, byName, hs.variableName?_eq found, hs'.variableName?_eq (h.bound found)]
  | app first _ ih =>
    refine ⟨.app (h.functions first) fun t ht => (ih t ht).1, ?_⟩
    have hsymbol : s'.signature.functionSymbol? _ = s.signature.functionSymbol? _ :=
      (h.functions first).get?_eq.trans first.get?_eq.symm
    rw [byName_app, byName_app, hsymbol, List.map_congr_left fun t ht => (ih t ht).2]

/-- Reading on changes neither that an atom is known nor its names. -/
theorem Atom.Known.keeps (hs : s.Sound) (hs' : s'.Sound) (h : s.Keeps s') {a : Atom}
    (ha : a.Known s) : a.Known s' ∧ a.byName s'.signature = a.byName s.signature := by
  obtain ⟨⟨name, hfirst⟩, hargs⟩ := ha
  have hkeeps := fun t ht => (hargs t ht).keeps hs hs' h
  refine ⟨⟨⟨name, h.predicates hfirst⟩, fun t ht => (hkeeps t ht).1⟩, ?_⟩
  have hsymbol : s'.signature.predicateSymbol? a.pred = s.signature.predicateSymbol? a.pred :=
    (h.predicates hfirst).get?_eq.trans hfirst.get?_eq.symm
  rw [Atom.byName, Atom.byName, hsymbol, List.map_congr_left fun t ht => (hkeeps t ht).2]

/-- Lists with equal images are equal, if entries with equal images are. -/
theorem eq_of_map_eq {α β : Type} {f : α → β} {l m : List α}
    (h : ∀ a ∈ l, ∀ b ∈ m, f a = f b → a = b) (heq : l.map f = m.map f) : l = m := by
  induction l generalizing m with
  | nil => exact (List.map_eq_nil_iff.1 heq.symm).symm
  | cons a l ih =>
    obtain ⟨b, m, rfl, hb, hm⟩ := List.map_eq_cons_iff.1 heq.symm
    rw [h a List.mem_cons_self b List.mem_cons_self hb.symm,
      ih (fun c hc d hd => h c (List.mem_cons_of_mem a hc) d (List.mem_cons_of_mem b hd)) hm.symm]

/-- **Known terms of equal names are equal.** -/
theorem Term.Known.eq_of_byName_eq (hs : s.Sound) {t t' : Term} (ht : t.Known s)
    (ht' : t'.Known s) (h : t.byName s.signature = t'.byName s.signature) : t = t' := by
  -- along the first term; the second one has the same shape, or the names would differ
  induction ht generalizing t' with
  | @var name x found =>
    cases ht' with
    | @var name' x' found' =>
      rw [byName, byName, hs.variableName?_eq found, hs.variableName?_eq found'] at h
      obtain rfl := Option.some.inj (NamedTerm.var.inj h)
      rw [Option.some.inj (found.symm.trans found')]
    | app _ _ =>
      rw [byName_app, byName] at h
      cases h
  | @app f name args first _ ih =>
    cases ht' with
    | var _ =>
      rw [byName_app, byName] at h
      cases h
    | @app f' name' args' first' args_known' =>
      rw [byName_app, byName_app] at h
      obtain ⟨hsymbol, hargs⟩ := NamedTerm.app.inj h
      have hsymbol : some (Symbol.mk name args.length) = some ⟨name', args'.length⟩ :=
        first.get?_eq.symm.trans (hsymbol.trans first'.get?_eq)
      -- both numbers are the first one of the same symbol
      have hf : f = f' := (first.eq_iff first').2 (Option.some.inj hsymbol)
      have hargs : args = args' :=
        eq_of_map_eq (fun a ha b hb heq => ih a ha (args_known' b hb) heq) hargs
      rw [hf, hargs]

/-- Known atoms of equal names are equal. -/
theorem Atom.Known.eq_of_byName_eq (hs : s.Sound) {a b : Atom} (ha : a.Known s)
    (hb : b.Known s) (h : a.byName s.signature = b.byName s.signature) : a = b := by
  obtain ⟨⟨name, hfirst⟩, hargs⟩ := ha
  obtain ⟨⟨name', hfirst'⟩, hargs'⟩ := hb
  obtain ⟨hsymbol, hmap⟩ := NamedAtom.mk.inj h
  have hsymbol : some (Symbol.mk name a.args.length) = some ⟨name', b.args.length⟩ :=
    hfirst.get?_eq.symm.trans (hsymbol.trans hfirst'.get?_eq)
  obtain ⟨p, as⟩ := a
  obtain ⟨q, bs⟩ := b
  have hp : p = q := (hfirst.eq_iff hfirst').2 (Option.some.inj hsymbol)
  have has : as = bs :=
    eq_of_map_eq (fun t ht u hu heq => (hargs t ht).eq_of_byName_eq hs (hargs' u hu) heq) hmap
  rw [hp, has]

/-- Literals with known atoms are equal if their names are. -/
theorem Literal.eq_of_byName_eq (hs : s.Sound) {l m : Literal} (hl : l.atom.Known s)
    (hm : m.atom.Known s) (h : l.byName s.signature = m.byName s.signature) : l = m := by
  obtain ⟨hsign, hatom⟩ := NamedLiteral.mk.inj h
  calc l = ⟨l.negated, l.atom⟩ := rfl
    _ = ⟨m.negated, m.atom⟩ := by rw [hsign, hl.eq_of_byName_eq hs hm hatom]
    _ = m := rfl

/-- The literals without repetitions have the names without repetitions. -/
theorem map_byName_eraseDups (hs : s.Sound) {ms : List Literal} (h : ∀ m ∈ ms, m.atom.Known s) :
    ms.eraseDups.map (Literal.byName s.signature) =
      (ms.map (Literal.byName s.signature)).eraseDups :=
  (eraseDups_map_of_injOn fun l hl m hm heq =>
    Literal.eq_of_byName_eq hs (h l hl) (h m hm) heq).symm

end

/-! ## Equal numbers, equal spellings -/

/-- The name that a function symbol has in the signature. -/
def Signature.functionName? (σ : Signature) (f : Nat) : Option String :=
  (σ.functionSymbol? f).map Symbol.name

/-- The name that a predicate symbol has in the signature. -/
def Signature.predicateName? (σ : Signature) (p : Nat) : Option String :=
  (σ.predicateSymbol? p).map Symbol.name

/-- The terms that occur in the clause, those inside others among them. -/
def Clause.subterms (c : Clause) : List Term :=
  c.literals.flatMap fun l => l.atom.args.flatMap Term.preorder

/-- In the clause, equal numbers stand for equal spellings and no others: of variables, and
of symbols with the numbers of their arguments. -/
structure Clause.NumberedByName (σ : Signature) (c : Clause) : Prop where
  variable_eq_iff : ∀ x ∈ c.vars, ∀ y ∈ c.vars, x = y ↔ σ.variableName? x = σ.variableName? y
  function_eq_iff : ∀ {f g : Nat} {as bs : List Term}, .app f as ∈ c.subterms →
    .app g bs ∈ c.subterms →
      (f = g ↔ σ.functionName? f = σ.functionName? g ∧ as.length = bs.length)
  predicate_eq_iff : ∀ l ∈ c.literals, ∀ m ∈ c.literals,
    (l.atom.pred = m.atom.pred ↔
      σ.predicateName? l.atom.pred = σ.predicateName? m.atom.pred ∧
        l.atom.args.length = m.atom.args.length)

section

variable {s : Scope}

/-- What occurs in a known term is known. -/
theorem Term.Known.of_mem_preorder {t u : Term} (ht : t.Known s) (hu : u ∈ t.preorder) :
    u.Known s := by
  induction ht with
  | var found =>
    rw [preorder_var, List.mem_singleton] at hu
    exact hu ▸ .var found
  | app first args_known ih =>
    rw [preorder_app, List.mem_cons, List.mem_flatMap] at hu
    rcases hu with rfl | ⟨t, ht, hu⟩
    · exact .app first args_known
    · exact ih t ht hu

/-- The scope finds each variable of a known term under a name. -/
theorem Term.Known.exists_lookup {t : Term} (ht : t.Known s) {x : Nat} (hx : x ∈ t.vars) :
    ∃ name, s.bound.lookup name = some x := by
  induction ht with
  | @var name y found =>
    rw [vars_var, List.mem_singleton] at hx
    exact ⟨name, hx ▸ found⟩
  | app _ _ ih =>
    obtain ⟨t, ht, hx⟩ := List.mem_flatMap.1 (vars_app .. ▸ hx)
    exact ih t ht hx

/-- First numbers are equal exactly if the names are, and the numbers of arguments. -/
theorem SymbolTable.IsFirst.eq_iff_name {t : SymbolTable} {i j m n : Nat} {a b : String}
    (hi : t.IsFirst ⟨a, m⟩ i) (hj : t.IsFirst ⟨b, n⟩ j) :
    i = j ↔ (t.get? i).map Symbol.name = (t.get? j).map Symbol.name ∧ m = n := by
  rw [hi.eq_iff hj, hi.get?_eq, hj.get?_eq, Symbol.mk.injEq, Option.map_some, Option.map_some,
    Option.some.injEq]

/-- **What a scope knows is numbered by name.** -/
theorem Clause.numberedByName (hs : s.Sound) {c : Clause}
    (h : ∀ l ∈ c.literals, l.atom.Known s) : c.NumberedByName s.signature where
  variable_eq_iff := by
    -- the scope finds each variable of the clause under its own name
    have hfound : ∀ x ∈ c.vars, ∃ name, s.bound.lookup name = some x := by
      intro x hx
      obtain ⟨l, hl, hx⟩ := List.mem_flatMap.1 hx
      obtain ⟨t, ht, hx⟩ := List.mem_flatMap.1 hx
      exact ((h l hl).args_known t ht).exists_lookup hx
    intro x hx y hy
    refine ⟨congrArg _, fun heq => ?_⟩
    obtain ⟨a, ha⟩ := hfound x hx
    obtain ⟨b, hb⟩ := hfound y hy
    rw [hs.variableName?_eq ha, hs.variableName?_eq hb] at heq
    obtain rfl := Option.some.inj heq
    exact Option.some.inj (ha.symm.trans hb)
  function_eq_iff := by
    have hknown : ∀ t ∈ c.subterms, t.Known s := by
      intro t ht
      obtain ⟨l, hl, ht⟩ := List.mem_flatMap.1 ht
      obtain ⟨u, hu, ht⟩ := List.mem_flatMap.1 ht
      exact ((h l hl).args_known u hu).of_mem_preorder ht
    intro f g as bs hf hg
    rcases hknown _ hf with _ | ⟨hf, -⟩
    rcases hknown _ hg with _ | ⟨hg, -⟩
    exact hf.eq_iff_name hg
  predicate_eq_iff l hl m hm := by
    obtain ⟨_, hl⟩ := (h l hl).first
    obtain ⟨_, hm⟩ := (h m hm).first
    exact hl.eq_iff_name hm

end

/-! ## Reading -/

namespace Problem

section

variable {α β : Type} {s : Scope} {m : InClause α} {Q : Scope → α → Prop} {P : Scope → β → Prop}

/-- The computation succeeds and leads to a sound scope that keeps what was known; what it
returns passes the condition there. -/
def Translates (s : Scope) (m : InClause α) (Q : Scope → α → Prop) : Prop :=
  ∃ a s', m.run s = (.ok a, s') ∧ s'.Sound ∧ s.Keeps s' ∧ Q s' a

/-- Returning a value leaves the scope as it is. -/
theorem translates_pure (hs : s.Sound) {a : α} (ha : Q s a) : Translates s (pure a) Q :=
  ⟨a, s, rfl, hs, .refl s, ha⟩

/-- One after the other: what the first leads to is kept by the second. -/
theorem Translates.bind {f : α → InClause β} (hm : Translates s m Q)
    (hf : ∀ a s', s'.Sound → s.Keeps s' → Q s' a → Translates s' (f a) P) :
    Translates s (m >>= f) P := by
  obtain ⟨a, s₁, hrun₁, hs₁, hkeeps₁, ha⟩ := hm
  obtain ⟨b, s₂, hrun₂, hs₂, hkeeps₂, hb⟩ := hf a s₁ hs₁ hkeeps₁ ha
  refine ⟨b, s₂, ?_, hs₂, hkeeps₁.trans hkeeps₂, hb⟩
  rw [run_bind, hrun₁]
  exact hrun₂

/-- What is done to a result carries one condition into another. -/
theorem Translates.map {f : α → β} (hm : Translates s m Q) (hf : ∀ a s', Q s' a → P s' (f a)) :
    Translates s (f <$> m) P := by
  rw [← bind_pure_comp]
  exact hm.bind fun a s' hs' _ ha => translates_pure hs' (hf a s' ha)

end

/-- The term is known, and by its names it is the expression. -/
structure Expr.Renders (e : Expr) (s : Scope) (t : Term) : Prop where
  known : t.Known s
  byName_eq : t.byName s.signature = e.byName

/-- The terms are known, and by their names they are the expressions. -/
structure RendersList (es : List Expr) (s : Scope) (ts : List Term) : Prop where
  known : ∀ t ∈ ts, t.Known s
  byName_eq : ts.map (Term.byName s.signature) = es.map Expr.byName

/-- The atom is known, and by its names it is the expression. -/
structure AtomExpr.Renders (e : AtomExpr) (s : Scope) (a : Atom) : Prop where
  known : a.Known s
  byName_eq : a.byName s.signature = e.byName

/-- The literal has a known atom, and by its names it is the expression. -/
structure LiteralExpr.Renders (e : LiteralExpr) (s : Scope) (l : Literal) : Prop where
  known : l.atom.Known s
  byName_eq : l.byName s.signature = e.byName

section

variable {s s' : Scope}

/-- A term still says what the expression does when more has been read. -/
theorem Expr.Renders.keeps {e : Expr} {t : Term} (h : e.Renders s t) (hs : s.Sound) (hs' : s'.Sound)
    (hkeeps : s.Keeps s') : e.Renders s' t := by
  obtain ⟨hknown, hnamed⟩ := h.known.keeps hs hs' hkeeps
  exact ⟨hknown, hnamed.trans h.byName_eq⟩

/-- A literal still says what the expression does when more has been read. -/
theorem LiteralExpr.Renders.keeps {e : LiteralExpr} {l : Literal} (h : e.Renders s l)
    (hs : s.Sound) (hs' : s'.Sound) (hkeeps : s.Keeps s') : e.Renders s' l := by
  obtain ⟨hknown, hnamed⟩ := h.known.keeps hs hs' hkeeps
  refine ⟨hknown, ?_⟩
  rw [← h.byName_eq, Literal.byName, Literal.byName, hnamed]

/-- There are as many terms as expressions, which makes the symbol in front have the right number
of arguments. -/
theorem RendersList.length_eq {es : List Expr} {ts : List Term} (h : RendersList es s ts) :
    ts.length = es.length := by
  have := congrArg List.length h.byName_eq
  rwa [List.length_map, List.length_map] at this

/-- A computation that always succeeds. -/
theorem translates_modifyGet {α : Type} {f : Scope → α × Scope} {a : α} {Q : Scope → α → Prop}
    (hf : f s = (a, s')) (hs' : s'.Sound) (hkeeps : s.Keeps s') (ha : Q s' a) :
    Translates s (modifyGet f) Q := by
  refine ⟨a, s', ?_, hs', hkeeps, ha⟩
  show ((.ok (f s).1, (f s).2) : Except ReadError α × Scope) = _
  rw [hf]

/-- Lists are read as what they say, if their entries are, and each of these in every sound
scope. -/
theorem translates_readList {es : List Expr}
    (h : ∀ e ∈ es, ∀ {s : Scope}, s.Sound → Translates s e.read e.Renders) (hs : s.Sound) :
    Translates s (Expr.readList es) (RendersList es) := by
  induction es generalizing s with
  | nil => exact translates_pure hs ⟨fun t ht => absurd ht List.not_mem_nil, rfl⟩
  | cons e es ih =>
    rw [List.forall_mem_cons] at h
    refine (h.1 hs).bind fun t s₁ hs₁ _ ht => ?_
    refine (ih h.2 hs₁).bind fun ts s₂ hs₂ hkeeps hts => translates_pure hs₂ ?_
    -- reading the later ones leaves the first as it was
    have ht := ht.keeps hs₁ hs₂ hkeeps
    refine ⟨List.forall_mem_cons.2 ⟨ht.known, hts.known⟩, ?_⟩
    rw [List.map_cons, List.map_cons, ht.byName_eq, hts.byName_eq]

/-- A function symbol is interned after its arguments, and its number is known then. -/
theorem translates_apply (hs : s.Sound) {name : String} {es : List Expr} {ts : List Term}
    (hts : RendersList es s ts) :
    Translates s (modifyGet (Scope.apply name ts)) fun s' t => t.Known s' ∧
      t.byName s'.signature = .app (some ⟨name, es.length⟩) (es.map Expr.byName) := by
  obtain ⟨f, s', happly, hs', hkeeps, hfirst⟩ := hs.apply name ts
  have hargs := fun t ht => (hts.known t ht).keeps hs hs' hkeeps
  refine translates_modifyGet happly hs' hkeeps ⟨.app hfirst fun t ht => (hargs t ht).1, ?_⟩
  have hsymbol : s'.signature.functionSymbol? f = some ⟨name, es.length⟩ :=
    hts.length_eq ▸ hfirst.get?_eq
  rw [Term.byName_app, hsymbol, List.map_congr_left fun t ht => (hargs t ht).2, hts.byName_eq]

/-- A predicate symbol is interned after its arguments, and its number is known then. -/
theorem translates_atom (hs : s.Sound) {name : String} {es : List Expr} {ts : List Term}
    (hts : RendersList es s ts) :
    Translates s (modifyGet (Scope.atom name ts)) fun s' a => a.Known s' ∧
      a.byName s'.signature = ⟨some ⟨name, es.length⟩, es.map Expr.byName⟩ := by
  obtain ⟨p, s', hatom, hs', hkeeps, hfirst⟩ := hs.atom name ts
  have hargs := fun t ht => (hts.known t ht).keeps hs hs' hkeeps
  refine translates_modifyGet hatom hs' hkeeps ⟨⟨⟨name, hfirst⟩, fun t ht => (hargs t ht).1⟩, ?_⟩
  have hsymbol : s'.signature.predicateSymbol? p = some ⟨name, es.length⟩ :=
    hts.length_eq ▸ hfirst.get?_eq
  rw [Atom.byName, hsymbol, List.map_congr_left fun t ht => (hargs t ht).2, hts.byName_eq]

/-- **A plain term is read as what it says**, in every sound scope. -/
theorem Expr.Plain.translates {e : Expr} (h : e.Plain) (hs : s.Sound) :
    Translates s e.read e.Renders := by
  induction h generalizing s with
  | var name =>
    obtain ⟨x, s', hresolve, hs', hkeeps, hfound⟩ := hs.resolve name
    refine translates_modifyGet hresolve hs' hkeeps ⟨.var hfound, ?_⟩
    rw [Term.byName, hs'.variableName?_eq hfound, Expr.byName]
  | apply args_plain ih =>
    refine (translates_readList (fun e he => ih e he) hs).bind fun ts s₁ hs₁ _ hts => ?_
    obtain ⟨t, s₂, hrun, hs₂, hkeeps, hknown, hnamed⟩ := translates_apply hs₁ hts
    exact ⟨t, s₂, hrun, hs₂, hkeeps, hknown, hnamed.trans (Expr.byName_apply _ _).symm⟩
  | constant spelling =>
    -- a constant is a symbol with no arguments, also where it is a number or an object
    have hnone : RendersList [] s [] := ⟨fun t ht => absurd ht List.not_mem_nil, rfl⟩
    have happly := @translates_apply s hs spelling [] [] hnone
    obtain ⟨t, s₁, hrun, hs₁, hkeeps, hknown, hnamed⟩ := happly
    exact ⟨t, s₁, hrun, hs₁, hkeeps, hknown, hnamed⟩

/-- **A plain atom is read as what it says.** -/
theorem AtomExpr.Plain.translates {a : AtomExpr} (h : a.Plain) (hs : s.Sound) :
    Translates s a.read a.Renders := by
  cases h with
  | plain args_plain =>
    have hlist := translates_readList (fun e he => (args_plain e he).translates) hs
    refine hlist.bind fun ts s₁ hs₁ _ hts => ?_
    obtain ⟨b, s₂, hrun, hs₂, hkeeps, hknown, hnamed⟩ := translates_atom hs₁ hts
    exact ⟨b, s₂, hrun, hs₂, hkeeps, hknown, hnamed⟩
  | equation left right =>
    refine (left.translates hs).bind fun t s₁ hs₁ _ ht => ?_
    refine (right.translates hs₁).bind fun u s₂ hs₂ hkeeps hu => translates_pure hs₂ ?_
    have ht := ht.keeps hs₁ hs₂ hkeeps
    have hargs : ∀ v ∈ [t, u], v.Known s₂ :=
      List.forall_mem_cons.2 ⟨ht.known, List.forall_mem_singleton.2 hu.known⟩
    refine ⟨⟨⟨"=", hs₂.isFirst_equality⟩, hargs⟩, ?_⟩
    have hsymbol : s₂.signature.predicateSymbol? Atom.equality = some ⟨"=", 2⟩ :=
      hs₂.indexed.equality
    rw [Atom.byName, Atom.equation, hsymbol, List.map_cons, List.map_singleton, ht.byName_eq,
      hu.byName_eq, AtomExpr.byName]

/-- **A plain literal is read as what it says.** A denied equation is read as the equation
first. -/
theorem LiteralExpr.Plain.translates {l : LiteralExpr} (h : l.Plain) (hs : s.Sound) :
    Translates s l.read l.Renders := by
  cases h with
  | positive atom =>
    exact (atom.translates hs).map fun a s' ha => ⟨ha.known, congrArg _ ha.byName_eq⟩
  | negative atom =>
    exact (atom.translates hs).map fun a s' ha => ⟨ha.known, congrArg _ ha.byName_eq⟩
  | inequation left right =>
    have hequation := (AtomExpr.Plain.equation left right).translates hs
    exact hequation.map fun a s' ha => ⟨ha.known, congrArg _ ha.byName_eq⟩

/-- All literals of a clause are read one after the other, in scopes that grow. -/
theorem translates_readLiterals {ls : List LiteralExpr} (h : ∀ l ∈ ls, l.Plain) (hs : s.Sound) :
    Translates s (readLiterals ls) fun s' ms => (∀ m ∈ ms, m.atom.Known s') ∧
      ms.map (Literal.byName s'.signature) = ls.map LiteralExpr.byName := by
  induction ls generalizing s with
  | nil => exact translates_pure hs ⟨fun m hm => absurd hm List.not_mem_nil, rfl⟩
  | cons l ls ih =>
    rw [List.forall_mem_cons] at h
    refine (h.1.translates hs).bind fun m s₁ hs₁ _ hm => ?_
    refine (ih h.2 hs₁).bind fun ms s₂ hs₂ hkeeps ⟨hknown, hnamed⟩ => translates_pure hs₂ ?_
    -- the first literal was read in an earlier scope
    have hm := hm.keeps hs₁ hs₂ hkeeps
    refine ⟨List.forall_mem_cons.2 ⟨hm.known, hknown⟩, ?_⟩
    rw [List.map_cons, List.map_cons, hm.byName_eq, hnamed]

end

/-! ## Clauses -/

variable {σ : Signature} {name : String} {ls : List LiteralExpr}

/-- A clause is read in a scope of its own, and then the later ones of equal literals are
dropped. -/
theorem exists_readClause_of_plain (hσ : σ.Indexed) (name : String)
    (hplain : ∀ l ∈ ls, l.Plain) :
    ∃ (c : Clause) (τ : Signature), (readClause name ls).run σ = (.ok c, τ) ∧
      c.label? = some name ∧
      c.literals.map (Literal.byName τ) = (ls.map LiteralExpr.byName).eraseDups ∧
      c.NumberedByName τ := by
  obtain ⟨ms, s, hrun, hs, -, hknown, hnamed⟩ :=
    translates_readLiterals hplain (Scope.sound_start hσ)
  refine ⟨Clause.make ms (.named name), s.signature, ?_, rfl, ?_, ?_⟩
  · show (((readLiterals ls).run ⟨σ, []⟩).1.map _, ((readLiterals ls).run ⟨σ, []⟩).2.signature) = _
    rw [hrun]
    rfl
  · exact (map_byName_eraseDups hs hknown).trans (congrArg List.eraseDups hnamed)
  · exact Clause.numberedByName hs fun l hl => hknown l (Clause.mem_make.1 hl)

/-- **Faithful translation.** The words of a plain clause are parsed as its literals, with
or without parentheses around them. Over every signature in which symbols are found under
their first numbers, these literals are read as a clause that has the name of the item. By
the names of its numbers it has the literals that were written, in their order, without the
later ones of those that are spelled alike. Equal numbers stand for equal spellings only. A
text of this one item is read as this clause. -/
theorem readClause_faithful (hσ : σ.Indexed) (hitem : (Item.clause name ls).WellSpelled)
    (hplain : ∀ l ∈ ls, l.Plain) :
    (∀ (fuel : Nat) (rest : List Token), (Parser.clauseWords ls).length ≤ fuel →
      Parser.EndsLiteral rest → Parser.NotNext "|" rest →
        Parser.clause fuel (Parser.clauseWords ls ++ rest) = some (ls, rest) ∧
          Parser.clause fuel (.mark "(" :: (Parser.clauseWords ls ++ .mark ")" :: rest)) =
            some (ls, rest)) ∧
    ∃ (c : Clause) (τ : Signature), (readClause name ls).run σ = (.ok c, τ) ∧
      c.label? = some name ∧
      c.literals.map (Literal.byName τ) = (ls.map LiteralExpr.byName).eraseDups ∧
      c.NumberedByName τ ∧
      ∀ (files : FileSystem) (text : String),
        Document.ofBytes (utf8 text) = ⟨[.clause name ls], none⟩ →
          (fromText files text).run σ = (.ok [c], τ) := by
  obtain ⟨-, hne, hspelled⟩ := hitem
  obtain ⟨c, τ, hrun, hlabel, hnames, hnumbers⟩ := exists_readClause_of_plain hσ name hplain
  refine ⟨fun fuel rest hfuel hrest hbar =>
    Parser.clause_plainWords hne hspelled hplain hfuel hrest hbar,
    c, τ, hrun, hlabel, hnames, hnumbers, fun files text hdocument => ?_⟩
  rw [fromText, hdocument]
  exact run_read_clause _ _ hrun

/-- A clause in parentheses, in which one equation is denied twice and one predicate is used
with two numbers of arguments, over a signature that has the constant of the clause twice. -/
theorem readClause_faithful_repeated :
    ∃ (σ τ : Signature) (c : Clause), σ.Built ∧ σ.functions.entries.size = 2 ∧
      ((fromText (Directory.ofFiles []).toFileSystem
        "cnf(c, axiom, (p(X, a) | ~ X = a | X != a | p(a))).").run σ).1 = .ok [c] ∧
      (readClause "c" [.positive (.plain "p" [.var "X", .apply "a" []]),
        .negative (.equation (.var "X") (.apply "a" [])), .inequation (.var "X") (.apply "a" []),
        .positive (.plain "p" [.apply "a" []])]).run σ = (.ok c, τ) ∧
      c.literals.map (Literal.byName τ) =
        [⟨false, some ⟨"p", 2⟩, [.var (some "X"), .app (some ⟨"a", 0⟩) []]⟩,
          ⟨true, some ⟨"=", 2⟩, [.var (some "X"), .app (some ⟨"a", 0⟩) []]⟩,
          ⟨false, some ⟨"p", 1⟩, [.app (some ⟨"a", 0⟩) []]⟩] ∧
      c.NumberedByName τ := by
  let x : Expr := .var "X"
  let a : Expr := .apply "a" []
  let ls : List LiteralExpr := [.positive (.plain "p" [x, a]), .negative (.equation x a),
    .inequation x a, .positive (.plain "p" [a])]
  let σ := ((Signature.initial.addFunction ⟨"a", 0⟩).2.addFunction ⟨"a", 0⟩).2
  have hσ : σ.Built := (Signature.Built.initial.addFunction _).addFunction _
  have hp : Spells Token.isAtomic "p" :=
    ⟨.lower "p", @Token.readable_of_scan? ['p'] [] _ (by decide) rfl, rfl, rfl⟩
  have hc : Spells Token.isLabel "c" :=
    ⟨.lower "c", @Token.readable_of_scan? ['c'] [] _ (by decide) rfl, rfl, rfl⟩
  have hx : x.WellSpelled := .var (@isVariableName_of_scan? ['X'] [] _ (by decide))
  have ha : a.WellSpelled :=
    .apply ⟨.lower "a", @Token.readable_of_scan? ['a'] [] _ (by decide) rfl, rfl, rfl⟩ (by simp)
  have hplain : a.Plain := .apply (by simp)
  have hspelled : ∀ l ∈ ls, l.WellSpelled := by
    simp only [ls, List.forall_mem_cons]
    exact ⟨.positive (.plain hp (by simp [hx, ha])), .negative (.equation hx ha),
      .inequation hx ha, .positive (.plain hp (by simp [ha])), by simp⟩
  have hplain : ∀ l ∈ ls, l.Plain := by
    simp only [ls, List.forall_mem_cons]
    exact ⟨.positive (.plain (by simp [x, hplain, Expr.Plain.var])),
      .negative (.equation (.var _) hplain), .inequation (.var _) hplain,
      .positive (.plain (by simp [hplain])), by simp⟩
  obtain ⟨-, c, τ, hrun, -, hnames, hnumbers, -⟩ :=
    readClause_faithful hσ.indexed ⟨hc, List.cons_ne_nil _ _, hspelled⟩ hplain
  have htext : ((fromText (Directory.ofFiles []).toFileSystem
      "cnf(c, axiom, (p(X, a) | ~ X = a | X != a | p(a))).").run σ).1 =
        ((readClause "c" ls).run σ).1.map ([·]) := by decide +kernel
  rw [hrun] at htext
  exact ⟨σ, τ, c, hσ, rfl, htext, hrun, hnames.trans (by decide +kernel), hnumbers⟩

end Problem

end Clausal
