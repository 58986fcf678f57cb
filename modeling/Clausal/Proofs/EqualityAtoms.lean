/-
Where the literals of a problem come from. Each clause that is read from a file comes from
an item of that file or of one that it includes, and each of its literals from a literal
of the item. A literal of equality comes from one that is written with a sign of equality
or of inequality between two terms, for no name is spelled like equality, so that no
symbol given by name gets the number of equality (`readsAll_fromFile`).

Since the symbol of equality has two arguments in every signature, so has every atom of
equality in a clause that has been read (`Clause.Printable.length_args`).
-/
import Clausal.Proofs.ReadingInvariant

set_option autoImplicit false

namespace Clausal

/-- In a clause over a signature, equality is between two terms. -/
theorem Clause.Printable.length_args {σ : Signature} (hσ : σ.WellFormed) {c : Clause}
    (hc : c.Printable σ) {l : Literal} (hl : l ∈ c.literals) (h : l.atom.isEquality = true) :
    l.atom.args.length = 2 :=
  Atom.Over.length_args hσ.equality (hc.known l hl) h

namespace Problem

/-! ## Literals -/

/-- The literal is written with a sign of equality or inequality between two terms. -/
def LiteralExpr.isInfix : LiteralExpr → Bool
  | .positive (.equation _ _) | .negative (.equation _ _) | .inequation _ _ => true
  | _ => false

/-- The sign of equality is no name. -/
theorem not_spells_equality : ¬Spells Token.isAtomic "=" := by
  intro h
  have hkind := h.ofSpelling.2.1
  exact absurd hkind (by decide)

/-- The number of a predicate symbol given by name is not that of equality. -/
theorem Scope.WellFormed.pred_atom_ne {s : Scope} (h : s.WellFormed) {name : String}
    (hname : Spells Token.isAtomic name) (args : List Term) :
    (s.atom name args).1.pred ≠ Atom.equality := by
  intro hpred
  have hknown := h.signature.predicates_faithful.get?_intern ⟨name, args.length⟩
  have hequality := s.signature.predicates.extends_intern ⟨name, args.length⟩ h.signature.equality
  -- the symbol would be the one that has the number of equality
  have hpred : (s.signature.predicates.intern ⟨name, args.length⟩).1 = Atom.equality := hpred
  rw [hpred, hequality, Option.some.injEq, Symbol.mk.injEq] at hknown
  exact not_spells_equality (hknown.1 ▸ hname)

/-- An atom of equality has been read from an equation, since no name is spelled as equality
is. -/
theorem AtomExpr.WellSpelled.ensures_equation {a : AtomExpr} (h : a.WellSpelled) {s : Scope}
    (hs : s.WellFormed) :
    Ensures Scope.Leads s a.read fun _ b =>
      b.isEquality = true → ∃ lhs rhs, a = .equation lhs rhs := by
  have hI := Scope.invariant_wellFormed
  cases h with
  | plain spelled args_spelled =>
    have hlist := readsOn_readList hI fun e he => (args_spelled e he).readsOn hI
    refine (@hlist [] s hs).bind fun ts s₁ hs₁ _ => ?_
    refine ensures_modifyGet ⟨hs₁.wellFormed.atom ts spelled,
      s₁.signature.extends_internPredicate _⟩ fun hequality => ?_
    rw [Atom.isEquality, beq_iff_eq] at hequality
    exact absurd hequality (hs₁.wellFormed.pred_atom_ne spelled ts)
  | reserved _ _ => exact ensures_throw hs.leads
  | equation left right =>
    have hread := (AtomExpr.WellSpelled.equation left right).readsOn hI
    exact ⟨(@hread [] s hs).related, fun _ _ _ => ⟨_, _, rfl⟩⟩

/-- The same for literals. -/
theorem LiteralExpr.WellSpelled.ensures_isInfix {l : LiteralExpr} (h : l.WellSpelled) {s : Scope}
    (hs : s.WellFormed) :
    Ensures Scope.Leads s l.read fun _ m => m.atom.isEquality = true → l.isInfix = true := by
  cases h with
  | positive atom =>
    refine (atom.ensures_equation hs).map fun a _ ha hequality => ?_
    obtain ⟨lhs, rhs, rfl⟩ := ha hequality
    rfl
  | negative atom =>
    refine (atom.ensures_equation hs).map fun a _ ha hequality => ?_
    obtain ⟨lhs, rhs, rfl⟩ := ha hequality
    rfl
  | inequation left right =>
    exact ((AtomExpr.WellSpelled.equation left right).ensures_equation hs).map fun _ _ _ _ => rfl

/-- The literal is what the expression is read as, in some scope, and if it is one of
equality, the expression has the sign of it. -/
structure LiteralExpr.Yields (l : LiteralExpr) (m : Literal) : Prop where
  read_eq : ∃ s s', l.read.run s = (.ok m, s')
  isInfix : m.atom.isEquality = true → l.isInfix = true

/-- Each literal of a clause has been read from a literal of the text. -/
theorem ensures_yields {ls : List LiteralExpr} (h : ∀ l ∈ ls, l.WellSpelled) {s : Scope}
    (hs : s.WellFormed) :
    Ensures Scope.Leads s (readLiterals ls) fun _ ms => ∀ m ∈ ms, ∃ l ∈ ls, l.Yields m := by
  induction ls generalizing s with
  | nil => exact ensures_pure hs.leads fun m hm => absurd hm List.not_mem_nil
  | cons l ls ih =>
    rw [List.forall_mem_cons] at h
    refine (h.1.ensures_isInfix hs).withRun.bind fun m s₁ hs₁ ⟨hrun, hm⟩ => ?_
    refine (ih h.2 hs₁.wellFormed).bind fun ms s₂ hs₂ hms => ?_
    refine ensures_pure hs₂.wellFormed.leads (List.forall_mem_cons.2 ⟨?_, fun k hk => ?_⟩)
    · exact ⟨l, List.mem_cons_self, ⟨s, s₁, hrun⟩, hm⟩
    · obtain ⟨l', hl', hyields⟩ := hms k hk
      exact ⟨l', List.mem_cons_of_mem l hl', hyields⟩

/-! ## Clauses -/

/-- The clause comes from an item of the file, or of one that the file includes, and each
of its literals from a literal of the item. -/
def ComesFrom (files : FileSystem) (path : String) (c : Clause) : Prop :=
  ∃ bytes name ls, files.read path = .ok bytes ∧
    ItemIn files (.clause name ls) (directoryOf path) (.ofBytes bytes) ∧ c.label? = some name ∧
      ∀ m ∈ c.literals, ∃ l ∈ ls, l.Yields m

/-- **Every clause read from a file** comes from an item. -/
theorem readsAll_fromFile (files : FileSystem) (path : String) :
    ReadsAll (fun _ c => ComesFrom files path c) (fromFile files path) := by
  refine (compositional_readsAll fun _ hc => hc).fromFile files path ?_
  intro bytes hbytes name ls hspelled hitem σ hσ
  have hscope : Scope.WellFormed ⟨σ, []⟩ := ⟨hσ, fun b hb => absurd hb List.not_mem_nil⟩
  have hclause : Ensures Signature.Leads σ (readClause name ls) fun _ c =>
      ComesFrom files path c := by
    refine (ensures_yields hspelled.2.2 hscope).readClause
      (fun s hs => ⟨hs.wellFormed.signature, hs.later⟩) fun s ms hms => ?_
    exact ⟨bytes, name, ls, hbytes, hitem, rfl, fun m hm => hms m (Clause.mem_make.1 hm)⟩
  refine hclause.bind fun c τ hτ hc => ?_
  exact ensures_pure hτ.wellFormed.leads (List.forall_mem_singleton.2 hc)

end Problem

end Clausal
