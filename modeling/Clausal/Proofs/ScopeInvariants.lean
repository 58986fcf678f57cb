/-
Invariants of reading. What is read inside a clause extends a scope: a variable is
resolved, or a symbol is applied, and nothing else happens to the scope. So a condition
that these keep is kept by the reading of every expression, and what is read is over the
signature that the reading leaves (`readsOn_readLiterals`). The condition may speak of the
variable occurrences of the clause up to now, and reading on extends these.

The argument goes along the computations. `Ensures R s m Q` says that `m` leads from the
state `s` to one that is related to it by `R`, whether it succeeds or not, and that what
it returns passes `Q` in that state. Sequencing is transitivity of `R`.
-/
import Clausal.Proofs.BuiltSignatures
import Clausal.Proofs.OverSignature
import Clausal.Proofs.WellSpelled
import Clausal.Problem.Reading

set_option autoImplicit false

namespace Clausal.Problem

/-! ## Computations that extend a state -/

/-- Relations that lead from any state to a good later one: they can be followed one
after the other, and from a good state to itself. -/
class LeadsOn {S : Type} (R : S → S → Prop) : Prop where
  trans : ∀ {a b c : S}, R a b → R b c → R a c
  stay : ∀ {a b : S}, R a b → R b b

section

variable {S ε α β : Type} {R : S → S → Prop} {s : S} {Q : S → α → Prop} {P : S → β → Prop}

/-- One computation after the other: an error of the first is the outcome, with the state that it
leaves. -/
theorem run_bind (m : ExceptT ε (StateM S) α) (f : α → ExceptT ε (StateM S) β) (s : S) :
    (m >>= f).run s = match m.run s with
      | (.ok a, s') => (f a).run s'
      | (.error e, s') => (.error e, s') := by
  show (match m.run s with | (r, s') => (ExceptT.bindCont f r).run s') = _
  rcases m.run s with ⟨_ | _, _⟩ <;> rfl

/-- The computation leads from the state to a related one, and what it returns, if it
returns anything, passes the condition there. -/
structure Ensures (R : S → S → Prop) (s : S) (m : ExceptT ε (StateM S) α)
    (Q : S → α → Prop) : Prop where
  related : R s (m.run s).2
  returns : ∀ a, (m.run s).1 = .ok a → Q (m.run s).2 a

/-- Returning a value stays where it is. -/
theorem ensures_pure {a : α} (hs : R s s) (ha : Q s a) :
    Ensures R s (pure a : ExceptT ε (StateM S) α) Q :=
  ⟨hs, fun _ h => Except.ok.inj h ▸ ha⟩

/-- An error stays where it is, and returns nothing. -/
theorem ensures_throw {e : ε} (hs : R s s) : Ensures R s (throw e : ExceptT ε (StateM S) α) Q :=
  ⟨hs, fun _ h => nomatch h⟩

/-- One change of the state, with a value that depends on it. -/
theorem ensures_modifyGet {f : S → α × S} (hs : R s (f s).2) (hf : Q (f s).2 (f s).1) :
    Ensures R s (modifyGet f : ExceptT ε (StateM S) α) Q :=
  ⟨hs, fun _ h => Except.ok.inj h ▸ hf⟩

/-- What a computation returns is the outcome of its run. -/
theorem Ensures.withRun {m : ExceptT ε (StateM S) α} (h : Ensures R s m Q) :
    Ensures R s m fun s' a => m.run s = (.ok a, s') ∧ Q s' a :=
  ⟨h.related, fun a ha => ⟨Prod.ext ha rfl, h.returns a ha⟩⟩

variable [LeadsOn R] {m : ExceptT ε (StateM S) α}

/-- One after the other. The second computation starts in a state related to the first one, and
this may be used. -/
theorem Ensures.bind {f : α → ExceptT ε (StateM S) β} (hm : Ensures R s m Q)
    (hf : ∀ a s', R s s' → Q s' a → Ensures R s' (f a) P) : Ensures R s (m >>= f) P := by
  obtain ⟨hrelated, hreturns⟩ := hm
  -- either part by the outcome of the first computation
  constructor <;> rw [run_bind] <;> rcases hm : m.run s with ⟨e | a, s'⟩ <;>
    rw [hm] at hrelated hreturns
  · exact hrelated
  · exact LeadsOn.trans hrelated (hf a s' hrelated (hreturns a rfl)).related
  · exact fun _ h => nomatch h
  · exact (hf a s' hrelated (hreturns a rfl)).returns

/-- What is done to a result carries one condition into another. -/
theorem Ensures.map {f : α → β} (hm : Ensures R s m Q) (hf : ∀ a s', Q s' a → P s' (f a)) :
    Ensures R s (f <$> m) P := by
  rw [← bind_pure_comp]
  exact hm.bind fun a s' hs' ha => ensures_pure (LeadsOn.stay hs') (hf a s' ha)

end

/-! ## Scopes -/

namespace Scope

/-- A condition on the scope after the variable occurrences `ws` of a clause that is kept
wherever the scope is extended. The relation `R` is what it leads along. -/
structure Invariant (R : Scope → Scope → Prop) (I : List Nat → Scope → Prop) : Prop where
  leads : ∀ {ws : List Nat} {s s' : Scope}, I ws s' → s.signature.Extends s'.signature → R s s'
  later : ∀ {s s' : Scope}, R s s' → s.signature.Extends s'.signature
  indexed : ∀ {ws : List Nat} {s : Scope}, I ws s → s.signature.Indexed
  /-- The variables of the clause are variables of the signature. -/
  bound : ∀ {ws : List Nat} {s : Scope}, I ws s →
    ∀ b ∈ s.bound, b.2 < s.signature.variableNames.size
  resolve : ∀ {ws : List Nat} {s : Scope}, I ws s → ∀ {name : String}, IsVariableName name →
    I (ws ++ (s.resolve name).1.vars) (s.resolve name).2
  apply : ∀ {ws : List Nat} {s : Scope}, I ws s → ∀ {name : String} {args : List Term},
    Symbol.IsFunction ⟨name, args.length⟩ → I ws (s.apply name args).2
  atom : ∀ {ws : List Nat} {s : Scope}, I ws s → ∀ {name : String} {args : List Term},
    Symbol.IsPredicate ⟨name, args.length⟩ → I ws (s.atom name args).2

/-- A known variable is found, and the scope stays as it is. -/
theorem resolve_of_eq_some {s : Scope} {name : String} {x : Nat}
    (h : s.bound.lookup name = some x) : s.resolve name = (.var x, s) := by
  rw [Scope.resolve, h]

/-- A new variable has the first number that no known one has. -/
theorem resolve_of_eq_none {s : Scope} {name : String} (h : s.bound.lookup name = none) :
    s.resolve name = (.var s.signature.variableNames.size,
      ⟨(s.signature.addVariable name).2,
        s.bound ++ [(name, s.signature.variableNames.size)]⟩) := by
  rw [Scope.resolve, h]
  rfl

/-- What is found in a scope is an entry of it. -/
theorem mem_bound_of_lookup {s : Scope} {name : String} {x : Nat}
    (h : s.bound.lookup name = some x) : (name, x) ∈ s.bound := by
  obtain ⟨before, after, hbound, -⟩ := List.lookup_eq_some_iff.1 h
  rw [hbound]
  exact List.mem_append_right _ List.mem_cons_self

/-- Resolving a variable extends the signature, if it changes it at all. -/
theorem extends_resolve (s : Scope) (name : String) :
    s.signature.Extends (s.resolve name).2.signature := by
  rcases h : s.bound.lookup name with _ | x
  · rw [resolve_of_eq_none h]
    exact s.signature.extends_addVariable name
  · rw [resolve_of_eq_some h]
    exact .refl _

/-- A resolved variable is a variable of the signature afterwards. -/
theorem over_resolve {s : Scope}
    (h : ∀ b ∈ s.bound, b.2 < s.signature.variableNames.size) (name : String) :
    (s.resolve name).1.Over (s.resolve name).2.signature := by
  rcases hlookup : s.bound.lookup name with _ | x
  · have hsize : s.signature.variableNames.size <
        (s.signature.addVariable name).2.variableNames.size := by
      rw [Signature.addVariable, Array.size_push]
      omega
    rw [resolve_of_eq_none hlookup]
    exact .var hsize
  · rw [resolve_of_eq_some hlookup]
    exact .var (h _ (mem_bound_of_lookup hlookup))

end Scope

/-! ## Expressions -/

section

variable {α β : Type} {R : Scope → Scope → Prop} {I : List Nat → Scope → Prop}

/-- Wherever in a clause the computation starts, it keeps the invariant, taking note of the
variable occurrences of what it returns, and this is over the signature that it leaves. -/
def ReadsOn (R : Scope → Scope → Prop) (I : List Nat → Scope → Prop) (m : InClause α)
    (vars : α → List Nat) (Over : Signature → α → Prop) : Prop :=
  ∀ ⦃ws : List Nat⦄ ⦃s : Scope⦄, I ws s →
    Ensures R s m fun s' a => I (ws ++ vars a) s' ∧ Over s'.signature a

section

variable (hI : Scope.Invariant R I)
include hI

/-- The invariant relates a scope to itself. -/
theorem Scope.Invariant.stay {ws : List Nat} {s : Scope} (hs : I ws s) : R s s :=
  hI.leads hs (.refl _)

/-- Reading a variable takes note of one occurrence of it. -/
theorem readsOn_resolve {name : String} (hname : IsVariableName name) :
    ReadsOn R I (modifyGet (Scope.resolve name)) Term.vars Term.Over := by
  intro ws s hs
  have hs' := hI.resolve hs hname
  exact ensures_modifyGet (hI.leads hs' (s.extends_resolve name))
    ⟨hs', Scope.over_resolve (hI.bound hs) name⟩

/-- A function symbol is interned once its arguments have been read. -/
theorem ensures_apply {ws : List Nat} {s : Scope} {args : List Term}
    (hs : I (ws ++ args.flatMap Term.vars) s) (hargs : ∀ t ∈ args, t.Over s.signature)
    {name : String} (hname : Symbol.IsFunction ⟨name, args.length⟩) :
    Ensures R s (modifyGet (Scope.apply name args) : InClause Term) fun s' t =>
      I (ws ++ t.vars) s' ∧ t.Over s'.signature := by
  have hs' := hI.apply hs hname
  have hlater := s.signature.extends_internFunction ⟨name, args.length⟩
  have hknown := (hI.indexed hs).functions.get?_intern ⟨name, args.length⟩
  have hvars : (s.apply name args).1.vars = args.flatMap Term.vars := Term.vars_app ..
  refine ensures_modifyGet (hI.leads hs' hlater) ⟨hvars.symm ▸ hs', ?_⟩
  exact .app hknown fun t ht => (hargs t ht).mono hlater

/-- A predicate symbol is interned once its arguments have been read. -/
theorem ensures_atom {ws : List Nat} {s : Scope} {args : List Term}
    (hs : I (ws ++ args.flatMap Term.vars) s) (hargs : ∀ t ∈ args, t.Over s.signature)
    {name : String} (hname : Symbol.IsPredicate ⟨name, args.length⟩) :
    Ensures R s (modifyGet (Scope.atom name args) : InClause Atom) fun s' a =>
      I (ws ++ a.vars) s' ∧ a.Over s'.signature := by
  have hs' := hI.atom hs hname
  have hlater := s.signature.extends_internPredicate ⟨name, args.length⟩
  have hknown := (hI.indexed hs).predicates.get?_intern ⟨name, args.length⟩
  refine ensures_modifyGet (hI.leads hs' hlater) ⟨hs', ⟨name, hknown⟩, ?_⟩
  exact fun t ht => (hargs t ht).mono hlater

end

variable [LeadsOn R]

/-- A change of the result that keeps its variables and its signature. -/
theorem ReadsOn.map {m : InClause α} {vars : α → List Nat} {Over : Signature → α → Prop}
    {vars' : β → List Nat} {Over' : Signature → β → Prop} {f : α → β}
    (hm : ReadsOn R I m vars Over) (hvars : ∀ a, vars' (f a) = vars a)
    (hover : ∀ σ a, Over σ a → Over' σ (f a)) : ReadsOn R I (f <$> m) vars' Over' := by
  intro ws s hs
  refine (hm hs).map fun a s' ha => ?_
  rw [hvars]
  exact ⟨ha.1, hover _ a ha.2⟩

variable (hI : Scope.Invariant R I)
include hI

/-- A list is read entry by entry, and the variable occurrences are those of the entries in
turn. -/
theorem readsOn_readList {es : List Expr}
    (h : ∀ e ∈ es, ReadsOn R I e.read Term.vars Term.Over) :
    ReadsOn R I (Expr.readList es) (List.flatMap Term.vars) fun σ ts => ∀ t ∈ ts, t.Over σ := by
  induction es with
  | nil =>
    intro ws s hs
    refine ensures_pure (hI.stay hs) ⟨?_, fun t ht => absurd ht List.not_mem_nil⟩
    rwa [List.flatMap_nil, List.append_nil]
  | cons e es ih =>
    rw [List.forall_mem_cons] at h
    intro ws s hs
    refine (h.1 hs).bind fun t s₁ _ ⟨hs₁, ht⟩ => ?_
    refine (ih h.2 hs₁).bind fun ts s₂ hlater ⟨hs₂, hts⟩ => ?_
    -- the first term was over an earlier signature
    refine ensures_pure (hI.stay hs₂) ⟨?_, List.forall_mem_cons.2 ⟨ht.mono (hI.later hlater), hts⟩⟩
    rwa [List.flatMap_cons, ← List.append_assoc]

/-- **Expressions are read on.** A reserved name is refused, which leaves the scope alone. -/
theorem Expr.WellSpelled.readsOn {e : Expr} (h : e.WellSpelled) :
    ReadsOn R I e.read Term.vars Term.Over := by
  induction h with
  | var spelled => exact readsOn_resolve hI spelled
  | apply spelled args_spelled ih =>
    intro ws s hs
    refine (readsOn_readList hI ih hs).bind fun ts s₁ _ ⟨hs₁, hts⟩ => ?_
    exact ensures_apply hI hs₁ hts (.inl spelled)
  | constant spelled =>
    intro ws s hs
    have hnone : I (ws ++ ([] : List Term).flatMap Term.vars) s := by
      rwa [List.flatMap_nil, List.append_nil]
    exact ensures_apply hI hnone (fun t ht => absurd ht List.not_mem_nil) (.inr ⟨spelled, rfl⟩)
  | reserved _ _ _ => exact fun ws s hs => ensures_throw (hI.stay hs)

/-- **Atoms are read on.** -/
theorem AtomExpr.WellSpelled.readsOn {a : AtomExpr} (h : a.WellSpelled) :
    ReadsOn R I a.read Atom.vars Atom.Over := by
  intro ws s hs
  cases h with
  | plain spelled args_spelled =>
    have hlist := readsOn_readList hI fun e he => (args_spelled e he).readsOn hI
    refine (hlist hs).bind fun ts s₁ _ ⟨hs₁, hts⟩ => ?_
    exact ensures_atom hI hs₁ hts spelled
  | reserved _ _ => exact ensures_throw (hI.stay hs)
  | equation left right =>
    -- no symbol is interned here, since equality is known to every signature
    refine (left.readsOn hI hs).bind fun t s₁ _ ⟨hs₁, ht⟩ => ?_
    refine (right.readsOn hI hs₁).bind fun u s₂ hlater ⟨hs₂, hu⟩ => ?_
    have hargs : ∀ v ∈ [t, u], v.Over s₂.signature :=
      List.forall_mem_cons.2 ⟨ht.mono (hI.later hlater), List.forall_mem_singleton.2 hu⟩
    have hvars : (Atom.equation t u).vars = t.vars ++ u.vars := by
      simp [Atom.vars, Atom.equation]
    refine ensures_pure (hI.stay hs₂) ⟨?_, ⟨_, (hI.indexed hs₂).equality⟩, hargs⟩
    rwa [hvars, ← List.append_assoc]

/-- **Literals are read on.** The sign has no variables in it. -/
theorem LiteralExpr.WellSpelled.readsOn {l : LiteralExpr} (h : l.WellSpelled) :
    ReadsOn R I l.read Literal.vars Literal.Over := by
  cases h with
  | positive atom => exact (atom.readsOn hI).map (fun _ => rfl) fun _ _ ha => ha
  | negative atom => exact (atom.readsOn hI).map (fun _ => rfl) fun _ _ ha => ha
  | inequation left right =>
    -- it is read as the equation, which is then negated
    have hatom := (AtomExpr.WellSpelled.equation left right).readsOn hI
    exact hatom.map (fun _ => rfl) fun _ _ ha => ha

/-- **Reading literals** keeps every invariant of scopes, and returns as many literals. -/
theorem readsOn_readLiterals {ls : List LiteralExpr} (h : ∀ l ∈ ls, l.WellSpelled) :
    ReadsOn R I (readLiterals ls) (List.flatMap Literal.vars) fun σ ms =>
      ms.length = ls.length ∧ ∀ m ∈ ms, m.Over σ := by
  induction ls with
  | nil =>
    intro ws s hs
    refine ensures_pure (hI.stay hs) ⟨?_, rfl, fun m hm => absurd hm List.not_mem_nil⟩
    rwa [List.flatMap_nil, List.append_nil]
  | cons l ls ih =>
    rw [List.forall_mem_cons] at h
    intro ws s hs
    refine (h.1.readsOn hI hs).bind fun m s₁ _ ⟨hs₁, hm⟩ => ?_
    refine (ih h.2 hs₁).bind fun ms s₂ hlater ⟨hs₂, hlength, hms⟩ => ?_
    refine ensures_pure (hI.stay hs₂) ⟨?_, congrArg (· + 1) hlength, ?_⟩
    · rwa [List.flatMap_cons, ← List.append_assoc]
    · exact List.forall_mem_cons.2 ⟨Atom.Over.mono (hI.later hlater) hm, hms⟩

end

/-! ## Clauses -/

/-- A clause is read in a scope of its own, and is returned exactly if its literals are. -/
theorem Ensures.readClause {R : Scope → Scope → Prop} {Q : Scope → List Literal → Prop}
    {σ : Signature} {ls : List LiteralExpr} (h : Ensures R ⟨σ, []⟩ (readLiterals ls) Q)
    {R' : Signature → Signature → Prop} {P : Signature → Clause → Prop} {name : String}
    (hR : ∀ s, R ⟨σ, []⟩ s → R' σ s.signature)
    (hQ : ∀ s ms, Q s ms → P s.signature (Clause.make ms (.named name))) :
    Ensures R' σ (readClause name ls) P := by
  refine ⟨hR _ h.related, fun c hc => ?_⟩
  have hc : ((readLiterals ls).run ⟨σ, []⟩).1.map (Clause.make · (.named name)) = .ok c := hc
  obtain ⟨ms, hms, rfl⟩ := map_eq_ok_iff.1 hc
  exact hQ _ ms (h.returns ms hms)

end Clausal.Problem
