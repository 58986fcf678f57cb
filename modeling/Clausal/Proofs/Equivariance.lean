/-
Inference does not depend on how variables are numbered. If the variables of the premises
are renamed by an injective map, then unification finds the same bindings and the two
enumerations find the same clauses in the same order, all of them renamed; and where one of
them fails, it fails in the same way (`inferences_equivariant`).

The proof follows the definitions from the bottom up, one lemma for each function: renaming
first and computing then is computing first and renaming then. Injectivity is needed
wherever things are compared: variables with each other and with the variables of a term,
propositions and literals when repetitions are removed, and a subterm with what is to take
its place. No function compares variables in any other way, so nothing more is needed.
-/
import Clausal.Factoring
import Clausal.Paramodulation
import Clausal.Proofs.Enumeration
import Clausal.Proofs.Factors
import Clausal.Proofs.FirstOccurrences
import Clausal.Proofs.ParamodulationSoundness
import Clausal.Proofs.Preorder
import Clausal.Proofs.Renaming
import Mathlib.Logic.Equiv.Basic

set_option autoImplicit false

namespace Clausal

/-! ## Renaming -/

/-- Renames the variables of anything that is made of terms. -/
def renameVars {α : Type} [HasSubst α] (ρ : Nat → Nat) (a : α) : α :=
  HasSubst.subst (fun x => .var (ρ x)) a

section

variable {ρ : Nat → Nat}

@[simp] theorem renameVars_var (x : Nat) : renameVars ρ (Term.var x) = .var (ρ x) := rfl

@[simp] theorem renameVars_app (f : Nat) (args : List Term) :
    renameVars ρ (Term.app f args) = .app f (args.map (renameVars ρ)) :=
  Term.subst_app _ f args

@[simp] theorem renameVars_list {α : Type} [HasSubst α] (as : List α) :
    renameVars ρ as = as.map (renameVars ρ) := rfl

/-- The arguments are renamed and the predicate stays. -/
theorem renameVars_atom (a : Atom) : renameVars ρ a = ⟨a.pred, a.args.map (renameVars ρ)⟩ :=
  Atom.subst_eq _ a

/-- An injective renaming of variables is injective on all that is made of terms. Every
comparison below rests on this. -/
theorem renameVars_injective {α : Type} [HasSubst α] [LawfulSubst α]
    (hρ : Function.Injective ρ) : Function.Injective (renameVars ρ : α → α) :=
  subst_var_injective hρ

/-- The variables of the renamed term are the renamed variables, in the same order. -/
theorem Term.vars_renameVars (t : Term) : (renameVars ρ t).vars = t.vars.map ρ :=
  (Term.vars_subst _ t).trans List.map_eq_flatMap.symm

/-- The nodes of the renamed term are the renamed nodes, so that an index means the same node in
both. -/
theorem Term.preorder_renameVars (t : Term) :
    (renameVars ρ t).preorder = t.preorder.map (renameVars ρ) := by
  induction t with
  | var x => rfl
  | app f args ih =>
    rw [renameVars_app, preorder_app, preorder_app, List.map_cons, renameVars_app,
      List.flatMap_map, List.map_flatMap]
    exact congrArg _ (List.flatMap_congr ih)

/-- Renaming does not change how many nodes a term has. -/
theorem Term.size_renameVars (t : Term) : (renameVars ρ t).size = t.size := by
  rw [← length_preorder, preorder_renameVars, List.length_map, length_preorder]

/-! ## Disagreements -/

/-- The renaming of a pair. -/
def renamePair (ρ : Nat → Nat) (d : Term × Term) : Term × Term :=
  (renameVars ρ d.1, renameVars ρ d.2)

/-- Renames the two terms of a disagreement; a clash of heads has none. -/
def Disagreement.rename (ρ : Nat → Nat) : Disagreement → Disagreement
  | .terms s t => .terms (renameVars ρ s) (renameVars ρ t)
  | .heads => .heads

/-- Renames the variable of a binding and its term. -/
def Binding.rename (ρ : Nat → Nat) (b : Binding) : Binding := ⟨ρ b.var, renameVars ρ b.term⟩

/-- The case of argument lists, under the induction hypothesis for their members. It needs no
injectivity of its own: only the members compare variables. -/
private theorem Term.disagreementList?_renameVars_of_forall_mem {ss ts : List Term}
    (ih : ∀ s ∈ ss, ∀ t : Term, (renameVars ρ s).disagreement? (renameVars ρ t) =
      (s.disagreement? t).map (renamePair ρ)) :
    disagreementList? (ss.map (renameVars ρ)) (ts.map (renameVars ρ)) =
      (disagreementList? ss ts).map (renamePair ρ) := by
  induction ss generalizing ts with
  | nil => cases ts <;> rfl
  | cons s ss ihs =>
    rw [List.forall_mem_cons] at ih
    rcases ts with _ | ⟨t, ts⟩
    · rfl
    · rw [List.map_cons, List.map_cons, disagreementList?, disagreementList?, ih.1 t]
      rcases s.disagreement? t with _ | d
      · exact ihs ih.2
      · rfl

variable (hρ : Function.Injective ρ)
include hρ

/-- The first disagreement of two renamed terms is the renamed first disagreement. Two variables
are compared on the way, so the renaming has to be injective. -/
theorem Term.disagreement?_renameVars (s t : Term) :
    (renameVars ρ s).disagreement? (renameVars ρ t) = (s.disagreement? t).map (renamePair ρ) := by
  induction s generalizing t with
  | var x =>
    rcases t with y | ⟨g, ts⟩
    · rw [renameVars_var, renameVars_var, disagreement?, disagreement?]
      -- injectivity: the renamed variables are equal just where the variables are
      by_cases hxy : x = y
      · rw [if_pos (congrArg ρ hxy), if_pos hxy]
        rfl
      · rw [if_neg (hρ.ne hxy), if_neg hxy]
        rfl
    · simp [disagreement?, renamePair]
  | app f ss ih =>
    rcases t with y | ⟨g, ts⟩
    · simp [disagreement?, renamePair]
    · rw [renameVars_app, renameVars_app, disagreement?, disagreement?, List.length_map,
        List.length_map]
      split
      · exact disagreementList?_renameVars_of_forall_mem fun s hs t => ih s hs t
      · rw [← renameVars_app, ← renameVars_app]
        rfl

/-- The same for propositions, where heads are compared first. -/
theorem Proposition.disagreement?_renameVars (p q : Proposition) :
    (renameVars ρ p).disagreement? (renameVars ρ q) =
      (p.disagreement? q).map (Disagreement.rename ρ) := by
  -- a term never agrees with an atom, so only the two equal kinds have something to show
  rcases p with s | a <;> rcases q with t | b
  · show ((renameVars ρ s).disagreement? (renameVars ρ t)).map _ = _
    rw [Term.disagreement?_renameVars hρ, disagreement?, Option.map_map, Option.map_map]
    rfl
  · rfl
  · rfl
  · show disagreement? (.atom (renameVars ρ a)) (.atom (renameVars ρ b)) = _
    rw [renameVars_atom, renameVars_atom, disagreement?, disagreement?, List.length_map,
      List.length_map]
    split
    · rw [Term.disagreementList?_renameVars_of_forall_mem fun s _ t =>
        Term.disagreement?_renameVars hρ s t, Option.map_map, Option.map_map]
      rfl
    · rfl

/-- The occurs check has the same outcome after renaming. -/
theorem Binding.make?_renameVars (x : Nat) (t : Term) :
    make? (ρ x) (renameVars ρ t) = (make? x t).map (Binding.rename ρ) := by
  rw [make?, make?, Term.vars_renameVars]
  by_cases hx : x ∈ t.vars
  · rw [if_pos hx, if_pos (List.mem_map_of_mem hx)]
    rfl
  · rw [if_neg hx, if_neg fun hmem => hx ((List.mem_map_of_injective hρ).1 hmem)]
    rfl

/-- A renamed disagreement is resolved by the renamed binding, or it cannot be resolved in either
form. The variable is looked for on the left first, also after renaming. -/
theorem Disagreement.binding?_rename (d : Disagreement) :
    (d.rename ρ).binding? = d.binding?.map (Binding.rename ρ) := by
  match d with
  | .terms (.var x) t => exact Binding.make?_renameVars hρ x t
  | .terms (.app f ss) (.var y) =>
    rw [rename, renameVars_app]
    exact (renameVars_app (ρ := ρ) f ss ▸ Binding.make?_renameVars hρ y (.app f ss) :)
  | .terms (.app f ss) (.app g ts) =>
    rw [rename, renameVars_app, renameVars_app]
    rfl
  | .heads => rfl

/-- Binding after renaming is renaming after binding. -/
theorem Binding.apply_renameVars {α : Type} [HasSubst α] [LawfulSubst α] (b : Binding) (a : α) :
    (b.rename ρ).apply (renameVars ρ a) = renameVars ρ (b.apply a) := by
  rw [apply, apply, renameVars, renameVars, LawfulSubst.subst_subst, LawfulSubst.subst_subst]
  congr 1
  funext x
  show (b.rename ρ).toSubst (ρ x) = (b.toSubst x).subst _
  -- a variable other than the bound one is not caught by the renamed binding either
  by_cases hx : x = b.var
  · rw [hx, toSubst_self]
    exact (b.rename ρ).toSubst_self
  · rw [toSubst_of_ne hx]
    exact toSubst_of_ne (hρ.ne hx)

end

/-! ## Unification -/

/-- Renames the bindings of a unifier one by one. -/
def Unifier.rename (ρ : Nat → Nat) (u : Unifier) : Unifier := ⟨u.bindings.map (Binding.rename ρ)⟩

/-- Renames the variables in all that an error speaks of. -/
def InferenceError.rename (ρ : Nat → Nat) : InferenceError → InferenceError
  | .nonUnifiable p q => .nonUnifiable (renameVars ρ p) (renameVars ρ q)
  | .degenerateReplacement i => .degenerateReplacement i
  | .negativeFactor l m => .negativeFactor (renameVars ρ l) (renameVars ρ m)
  | .notEquation l => .notEquation (renameVars ρ l)
  | .indexOutOfRange i n => .indexOutOfRange i n
  | .invalidPosition i => .invalidPosition i

/-- Renames the outcome of an inference, which is a value to be renamed by `f`, or an
error. -/
def renameOutcome {α : Type} (ρ : Nat → Nat) (f : α → α) :
    Except InferenceError α → Except InferenceError α
  | .ok a => .ok (f a)
  | .error e => .error (e.rename ρ)

namespace Unification

/-- Renames the pending propositions and the bindings made so far. -/
def rename (ρ : Nat → Nat) (u : Unification) : Unification :=
  ⟨renameVars ρ u.pending, u.unifier.rename ρ⟩

/-- Renames the outcome of one step. -/
def Outcome.rename (ρ : Nat → Nat) : Outcome → Outcome
  | .solved => .solved
  | .conflict p q => .conflict (renameVars ρ p) (renameVars ρ q)
  | .continue u => .continue (u.rename ρ)

variable {ρ : Nat → Nat} (hρ : Function.Injective ρ)
include hρ

/-- The run on renamed propositions starts in the renamed state, with the same repetitions
removed. -/
theorem start_renameVars (ps : List Proposition) : start (renameVars ρ ps) = (start ps).rename ρ :=
  congrArg (Unification.mk · .empty) (eraseDups_map_of_injective (renameVars_injective hρ) ps)

/-- Taking a renamed binding into a renamed state gives the renamed next state. The propositions
are bound and then freed of repetitions, so injectivity comes in twice. -/
theorem bind_rename (u : Unification) (b : Binding) :
    (u.rename ρ).bind (b.rename ρ) = (u.bind b).rename ρ := by
  have hpending : ((u.pending.map (renameVars ρ)).map (b.rename ρ).apply).eraseDups =
      (u.pending.map b.apply).eraseDups.map (renameVars ρ) := by
    rw [← eraseDups_map_of_injective (renameVars_injective hρ), List.map_map, List.map_map]
    congr 2
    funext p
    exact Binding.apply_renameVars hρ b p
  have hunifier : (u.unifier.rename ρ).push (b.rename ρ) = (u.unifier.push b).rename ρ := by
    rw [Unifier.push, Unifier.push, Unifier.rename, Unifier.rename, List.map_append]
    rfl
  exact congrArg₂ Unification.mk hpending hunifier

/-- **A step** of the renamed run is the renamed step. -/
theorem step_rename (u : Unification) : (u.rename ρ).step = u.step.rename ρ := by
  -- only with two propositions or more is there a pair to compare
  obtain ⟨_ | ⟨p, _ | ⟨q, rest⟩⟩, unifier⟩ := u
  · rfl
  · rfl
  · have hd := Proposition.disagreement?_renameVars hρ p q
    rw [rename, renameVars_list, List.map_cons, List.map_cons, step, step]
    simp only
    rw [hd]
    rcases p.disagreement? q with _ | d
    · rfl
    · have hb := d.binding?_rename hρ
      simp only [Option.map_some]
      rw [hb]
      rcases d.binding? with _ | b
      · rfl
      · exact congrArg Outcome.continue (bind_rename hρ ⟨p :: q :: rest, unifier⟩ b)

/-- The whole run is renamed, whether it ends with a unifier or with a conflict. -/
theorem run_rename (u : Unification) :
    (u.rename ρ).run = renameOutcome ρ (Unifier.rename ρ) u.run := by
  -- along the recursion of `run`, which follows the steps
  induction u using run.induct with
  | case1 u hs => rw [run, run, step_rename hρ, hs]; rfl
  | case2 u p q hs => rw [run, run, step_rename hρ, hs]; rfl
  | case3 u v hs ih =>
    rw [run, run, step_rename hρ, hs]
    exact ih

end Unification

/-- **Unification is equivariant.** -/
theorem mgu_renameVars {ρ : Nat → Nat} (hρ : Function.Injective ρ) (ps : List Proposition) :
    mgu (renameVars ρ ps) = renameOutcome ρ (Unifier.rename ρ) (mgu ps) := by
  rw [mgu, mgu, Unification.start_renameVars hρ, Unification.run_rename hρ]

/-! ## Enumerations -/

section

variable {α β : Type} {ρ : Nat → Nat} {f : α → α} {g : β → β}

/-- Renaming goes through the sequence of two steps that may fail. -/
theorem renameOutcome_bind {x : Except InferenceError α} {k k' : α → Except InferenceError β}
    (h : ∀ a, k (f a) = renameOutcome ρ g (k' a)) :
    renameOutcome ρ f x >>= k = renameOutcome ρ g (x >>= k') := by
  rcases x with e | a
  · rfl
  · exact h a

/-- Renaming goes through what is done to a result. -/
theorem renameOutcome_map {h : α → β} (hfg : ∀ a, h (f a) = g (h a))
    (x : Except InferenceError α) : h <$> renameOutcome ρ f x = renameOutcome ρ g (h <$> x) := by
  rcases x with e | a
  · rfl
  · exact congrArg Except.ok (hfg a)

/-- Which errors count as no result at all does not depend on the names of variables. -/
theorem productive_renameOutcome (x : Except InferenceError α) :
    productive (renameOutcome ρ f x) = renameOutcome ρ (List.map f) (productive x) := by
  rcases x with e | a
  · cases e <;> rfl
  · rfl

/-- Collecting over a mapped list is collecting over the list, with the map done first. -/
theorem collect_map (k : α → Except InferenceError (List β)) (h : α → α) (as : List α) :
    collect k (as.map h) = collect (k ∘ h) as := by
  induction as with
  | nil => rfl
  | cons a as ih => rw [List.map_cons, collect, collect, ih]; rfl

/-- If each result is renamed, then so is the collection, the first error included. -/
theorem collect_renameOutcome {k k' : α → Except InferenceError (List β)} {as : List α}
    (h : ∀ a ∈ as, k a = renameOutcome ρ (List.map g) (k' a)) :
    collect k as = renameOutcome ρ (List.map g) (collect k' as) := by
  induction as with
  | nil => rfl
  | cons a as ih =>
    rw [List.forall_mem_cons] at h
    rw [collect, collect, h.1, ih h.2]
    refine renameOutcome_bind fun here => renameOutcome_bind fun later => ?_
    exact congrArg Except.ok List.map_append.symm

/-- Selecting a member of a mapped list is mapping the selections. -/
theorem selections_map (f : α → β) (l : List α) :
    selections (l.map f) = (selections l).map (Prod.map f (List.map f)) := by
  induction l with
  | nil => rfl
  | cons a l ih =>
    rw [List.map_cons, selections, selections, ih, List.map_cons, List.map_map, List.map_map]
    rfl

/-- Selecting a pair of a mapped list is mapping the selected pairs. -/
theorem pairSelections_map (f : α → β) (l : List α) :
    pairSelections (l.map f) =
      (pairSelections l).map (Prod.map f (Prod.map f (List.map f))) := by
  induction l with
  | nil => rfl
  | cons a l ih =>
    rw [List.map_cons, pairSelections, pairSelections, ih, selections_map, List.map_append,
      List.map_map, List.map_map, List.map_map, List.map_map]
    rfl

end

/-! ## Positions -/

section

variable {ρ : Nat → Nat}

/-- Renaming does not change the number of nodes in a list of terms. -/
theorem Term.sizeList_renameVars (ts : List Term) :
    sizeList (ts.map (renameVars ρ)) = sizeList ts := by
  induction ts with
  | nil => rfl
  | cons t ts ih => rw [List.map_cons, sizeList_cons, sizeList_cons, size_renameVars, ih]

/-- Renaming does not change the number of nodes in an atom. -/
theorem Atom.size_renameVars (a : Atom) : (renameVars ρ a).size = a.size := by
  rw [renameVars_atom, size, size, Term.sizeList_renameVars]

/-- The node at an index is the renamed node at that index, and an index that is out of range
stays so. -/
theorem Term.nodeList?_renameVars (ts : List Term) (i : Nat) :
    nodeList? (ts.map (renameVars ρ)) i = (nodeList? ts i).map (renameVars ρ) := by
  have hpreorder : (ts.map (renameVars ρ)).flatMap preorder =
      (ts.flatMap preorder).map (renameVars ρ) := by
    rw [List.flatMap_map, List.map_flatMap]
    exact List.flatMap_congr fun t _ => preorder_renameVars t
  rw [nodeList?_eq, nodeList?_eq, hpreorder, List.getElem?_map]

/-- The case of argument lists, under the induction hypothesis for their members. The index is
the same for both, since their members have the same sizes. -/
private theorem Term.replaceNodeList_renameVars_of_forall_mem (r : Term) {ts : List Term}
    (ih : ∀ t ∈ ts, ∀ i, replaceNode (renameVars ρ r) (renameVars ρ t) i =
      renameVars ρ (replaceNode r t i)) (i : Nat) :
    replaceNodeList (renameVars ρ r) (ts.map (renameVars ρ)) i =
      (replaceNodeList r ts i).map (renameVars ρ) := by
  induction ts generalizing i with
  | nil => rfl
  | cons t ts ihs =>
    rw [List.forall_mem_cons] at ih
    rw [List.map_cons, replaceNodeList, replaceNodeList, size_renameVars]
    split
    · rw [ih.1, List.map_cons]
    · rw [ihs ih.2, List.map_cons]

/-- Replacing the node at an index and renaming may be done in either order. -/
theorem Term.replaceNode_renameVars (r t : Term) (i : Nat) :
    replaceNode (renameVars ρ r) (renameVars ρ t) i = renameVars ρ (replaceNode r t i) := by
  induction t generalizing i with
  | var x => cases i <;> rfl
  | app f args ih =>
    cases i with
    | zero => simp only [replaceNode]
    | succ i =>
      rw [renameVars_app, replaceNode, replaceNode, renameVars_app,
        replaceNodeList_renameVars_of_forall_mem r fun t ht i => ih t ht i]

/-- Whether an atom is an equation is decided by its predicate and the number of its arguments,
which renaming leaves alone. -/
theorem Atom.sides?_renameVars (a : Atom) :
    (renameVars ρ a).sides? = a.sides?.map (renamePair ρ) := by
  obtain ⟨p, args⟩ := a
  rw [renameVars_atom]
  match args with
  | [] | [_] | _ :: _ :: _ :: _ => rfl
  | [s, t] =>
    show (if p == equality then some (renameVars ρ s, renameVars ρ t) else none) =
      (if p == equality then some (s, t) else none).map (renamePair ρ)
    split <;> rfl

/-- A literal asserts an equation after renaming just if it did before, and then the two sides
are renamed. -/
theorem Literal.equation?_renameVars (l : Literal) :
    (renameVars ρ l).equation? = l.equation?.map (renamePair ρ) := by
  show (if l.negated then none else (renameVars ρ l.atom).sides?) = _
  rw [Atom.sides?_renameVars, equation?]
  split <;> rfl

/-- The two orientations come in the same order after renaming. -/
theorem Literal.orientations_renameVars (l : Literal) :
    (renameVars ρ l).orientations = l.orientations.map (renamePair ρ) := by
  have hsides : (renameVars ρ l).atom.sides? = l.atom.sides?.map (renamePair ρ) :=
    l.atom.sides?_renameVars
  rw [orientations, orientations, hsides]
  rcases l.atom.sides? with _ | ⟨s, t⟩ <;> rfl

/-- Reading a subterm and renaming may be done in either order; the errors name indices only. -/
theorem Atom.subtermAt_renameVars (a : Atom) (i : Nat) :
    (renameVars ρ a).subtermAt i = renameOutcome ρ (renameVars ρ) (a.subtermAt i) := by
  cases i with
  | zero => rfl
  | succ i =>
    rw [subtermAt, subtermAt, size_renameVars, renameVars_atom, Term.nodeList?_renameVars]
    rcases Term.nodeList? a.args i with _ | s <;> rfl

/-- Replacing a subterm and renaming may be done in either order. Injectivity keeps a replacement
that would change nothing apart from one that would. -/
theorem Atom.replaceAt_renameVars (hρ : Function.Injective ρ) (a : Atom) (i : Nat) (r : Term) :
    (renameVars ρ a).replaceAt i (renameVars ρ r) =
      renameOutcome ρ (renameVars ρ) (a.replaceAt i r) := by
  rw [replaceAt, replaceAt, subtermAt_renameVars]
  refine renameOutcome_bind fun s => ?_
  by_cases hs : s = r
  · rw [if_pos (congrArg (renameVars ρ) hs), if_pos hs]
    rfl
  · rw [if_neg ((renameVars_injective hρ).ne hs), if_neg hs, renameVars_atom,
      Term.replaceNodeList_renameVars_of_forall_mem r fun t _ i =>
        Term.replaceNode_renameVars r t i]
    exact congrArg Except.ok (renameVars_atom ⟨a.pred, r.replaceNodeList a.args (i - 1)⟩).symm

end

/-! ## Clauses -/

section

variable {ρ : Nat → Nat} (hρ : Function.Injective ρ)
include hρ

/-- Making a clause out of renamed literals: no two of them become equal. -/
theorem Clause.make_renameVars (ls : List Literal) (provenance : Provenance) :
    make (ls.map (renameVars ρ)) provenance = (make ls provenance).rename ρ :=
  congrArg (Clause.mk · provenance) (eraseDups_map_of_injective (renameVars_injective hρ) ls)

/-- The record of a derivation has no variables in it. -/
theorem Clause.derivedBy_rename (c : Clause) (rule : Rule) (parents : List (Option String)) :
    (c.rename ρ).derivedBy rule parents = (c.derivedBy rule parents).rename ρ :=
  make_renameVars hρ c.literals _

/-- Literals that a binding merges are merged after renaming, too, and no others. -/
theorem Clause.bind_rename (b : Binding) (c : Clause) :
    (b.rename ρ).apply (c.rename ρ) = (b.apply c).rename ρ := by
  have hliterals : (c.literals.map (renameVars ρ)).map (b.rename ρ).apply =
      (c.literals.map b.apply).map (renameVars ρ) := by
    rw [List.map_map, List.map_map]
    exact List.map_congr_left fun l _ => Binding.apply_renameVars hρ b l
  show make ((c.literals.map (renameVars ρ)).map (b.rename ρ).apply) c.provenance = _
  rw [hliterals, make_renameVars hρ]
  rfl

/-- Applying a renamed unifier to a renamed clause, one binding after the other. -/
theorem Clause.apply_rename (u : Unifier) (c : Clause) :
    (u.rename ρ).apply (c.rename ρ) = (u.apply c).rename ρ := by
  obtain ⟨bindings⟩ := u
  -- a unifier is applied binding by binding, and each application makes the clause anew
  induction bindings generalizing c with
  | nil => rfl
  | cons b bindings ih =>
    show (Unifier.rename ρ ⟨bindings⟩).apply ((b.rename ρ).apply (c.rename ρ)) = _
    rw [bind_rename hρ, ih]
    rfl

/-! ## Factoring -/

/-- A single application of the rule, with all its errors. -/
theorem factor_renameVars (rest : List Literal) (l m : Literal) :
    factor (rest.map (renameVars ρ)) (renameVars ρ l) (renameVars ρ m) =
      renameOutcome ρ (Clause.rename ρ) (factor rest l m) := by
  have hunify : (renameVars ρ l.atom).unify (renameVars ρ m.atom) =
      renameOutcome ρ (Unifier.rename ρ) (l.atom.unify m.atom) :=
    mgu_renameVars hρ [.atom l.atom, .atom m.atom]
  have hkept : rest.map (renameVars ρ) ++ [renameVars ρ l] =
      (rest ++ [l]).map (renameVars ρ) := by rw [List.map_append, List.map_singleton]
  -- renaming leaves the signs alone, so the guard is the same on both sides
  show (if l.negated || m.negated then _ else (renameVars ρ l.atom).unify (renameVars ρ m.atom) >>=
    fun u => pure (u.apply (Clause.ofLiterals (rest.map (renameVars ρ) ++ [renameVars ρ l])))) = _
  rw [factor, hunify, hkept]
  split
  · rfl
  · refine renameOutcome_bind fun u => ?_
    rw [Clause.ofLiterals, Clause.make_renameVars hρ, Clause.apply_rename hρ]
    rfl

/-- The factors that one selected pair of literals gives. -/
theorem Clause.factorsAt_rename (c : Clause) (l m : Literal) (rest : List Literal) :
    (c.rename ρ).factorsAt (renameVars ρ l, renameVars ρ m, rest.map (renameVars ρ)) =
      renameOutcome ρ (List.map (Clause.rename ρ)) (c.factorsAt (l, m, rest)) := by
  show (if l.isPositive && m.isPositive then _ else _) = _
  rw [factorsAt]
  split
  · rw [factor_renameVars hρ, ← productive_renameOutcome]
    exact congrArg productive (renameOutcome_map (fun f => derivedBy_rename hρ f _ _) _)
  · rfl

/-- **Factoring is equivariant.** -/
theorem Clause.factors_rename (c : Clause) :
    (c.rename ρ).factors = renameOutcome ρ (List.map (Clause.rename ρ)) c.factors := by
  rw [factors, factors]
  show collect _ (pairSelections (c.literals.map (renameVars ρ))) = _
  rw [pairSelections_map, collect_map]
  exact collect_renameOutcome fun s _ => factorsAt_rename hρ c s.1 s.2.1 s.2.2

/-! ## Paramodulation -/

/-- A single application of the rule, with all its errors. Its four steps are gone through one
after the other, and each step commutes with renaming. -/
theorem paramodulate_renameVars (rest targetRest : List Literal) (equation : Term × Term)
    (target : Literal) (position : Nat) :
    paramodulate (rest.map (renameVars ρ)) (renamePair ρ equation)
        (targetRest.map (renameVars ρ)) (renameVars ρ target) position =
      renameOutcome ρ (Clause.rename ρ)
        (paramodulate rest equation targetRest target position) := by
  have hunify : ∀ s : Term, (renameVars ρ equation.1).unify (renameVars ρ s) =
      renameOutcome ρ (Unifier.rename ρ) (equation.1.unify s) :=
    fun s => mgu_renameVars hρ [.term equation.1, .term s]
  rw [paramodulate, paramodulate]
  show (renameVars ρ target.atom).subtermAt position >>= _ = _
  rw [Atom.subtermAt_renameVars]
  refine renameOutcome_bind fun s => ?_
  show (renameVars ρ equation.1).unify (renameVars ρ s) >>= _ = _
  rw [hunify]
  refine renameOutcome_bind fun u => ?_
  show (renameVars ρ target.atom).replaceAt position (renameVars ρ equation.2) >>= _ = _
  rw [Atom.replaceAt_renameVars hρ]
  refine renameOutcome_bind fun a => ?_
  -- all steps have succeeded; the clause that is made has the renamed literals
  have hliterals : (⟨target.negated, renameVars ρ a⟩ :: rest.map (renameVars ρ)) ++
      targetRest.map (renameVars ρ) =
        ((⟨target.negated, a⟩ :: rest) ++ targetRest).map (renameVars ρ) := by
    rw [List.map_append, List.map_cons]
    rfl
  show pure ((u.rename ρ).apply (Clause.ofLiterals
    ((⟨target.negated, renameVars ρ a⟩ :: rest.map (renameVars ρ)) ++
      targetRest.map (renameVars ρ)))) = _
  rw [hliterals, Clause.ofLiterals, Clause.make_renameVars hρ, Clause.apply_rename hρ]
  rfl

/-- One literal used as an equation on another one, over all positions and both orientations. -/
theorem literalParamodulants_renameVars (rest : List Literal) (equation : Literal)
    (targetRest : List Literal) (target : Literal) :
    literalParamodulants (rest.map (renameVars ρ)) (renameVars ρ equation)
        (targetRest.map (renameVars ρ)) (renameVars ρ target) =
      renameOutcome ρ (List.map (Clause.rename ρ))
        (literalParamodulants rest equation targetRest target) := by
  have hsize : (renameVars ρ target).atom.size = target.atom.size :=
    Atom.size_renameVars target.atom
  rw [literalParamodulants, literalParamodulants, Literal.equation?_renameVars, hsize,
    Literal.orientations_renameVars]
  rcases equation.equation? with _ | ⟨s, t⟩
  · rfl
  · show (if renameVars ρ s = renameVars ρ t then _ else _) = _
    -- an equation of a term with itself is passed over, before renaming and after
    by_cases hst : s = t
    · rw [if_pos (congrArg (renameVars ρ) hst), hst]
      simp only [if_true]
      rfl
    · rw [if_neg ((renameVars_injective hρ).ne hst)]
      simp only [if_neg hst]
      refine collect_renameOutcome fun position _ => ?_
      rw [collect_map]
      refine collect_renameOutcome fun e _ => ?_
      rw [← productive_renameOutcome, ← paramodulate_renameVars hρ]
      rfl

/-- One direction is enumerated under the same condition as before, that its first literal
asserts an atom of equality. -/
theorem directedParamodulants_renameVars (one two : Literal × List Literal) :
    directedParamodulants (Prod.map (renameVars ρ) (List.map (renameVars ρ)) one)
        (Prod.map (renameVars ρ) (List.map (renameVars ρ)) two) =
      renameOutcome ρ (List.map (Clause.rename ρ)) (directedParamodulants one two) := by
  show (if one.1.isPositiveEquality then literalParamodulants (one.2.map (renameVars ρ))
    (renameVars ρ one.1) (two.2.map (renameVars ρ)) (renameVars ρ two.1) else .ok []) = _
  rw [literalParamodulants_renameVars hρ, directedParamodulants]
  split <;> rfl

/-- Both directions between two selected literals. -/
theorem selectionParamodulants_renameVars (one two : Literal × List Literal) :
    selectionParamodulants (Prod.map (renameVars ρ) (List.map (renameVars ρ)) one)
        (Prod.map (renameVars ρ) (List.map (renameVars ρ)) two) =
      renameOutcome ρ (List.map (Clause.rename ρ)) (selectionParamodulants one two) := by
  rw [selectionParamodulants_eq, selectionParamodulants_eq,
    directedParamodulants_renameVars hρ, directedParamodulants_renameVars hρ]
  refine renameOutcome_bind fun forward => renameOutcome_bind fun backward => ?_
  exact congrArg Except.ok List.map_append.symm

/-- All paramodulants between two clauses. -/
theorem Clause.paramodulants_rename (c given : Clause) :
    (c.rename ρ).paramodulants (given.rename ρ) =
      renameOutcome ρ (List.map (Clause.rename ρ)) (c.paramodulants given) := by
  -- the inner enumeration, for one selected literal of the first clause
  have hone : ∀ one : Literal × List Literal,
      collect (selectionParamodulants (Prod.map (renameVars ρ) (List.map (renameVars ρ)) one))
          (selections (given.literals.map (renameVars ρ))) =
        renameOutcome ρ (List.map (Clause.rename ρ))
          (collect (selectionParamodulants one) (selections given.literals)) := fun one => by
    rw [selections_map, collect_map]
    exact collect_renameOutcome fun two _ => selectionParamodulants_renameVars hρ one two
  rw [paramodulants, paramodulants]
  show collect _ (selections (c.literals.map (renameVars ρ))) = _
  rw [selections_map, collect_map]
  refine collect_renameOutcome fun one _ => ?_
  show _ <$> collect _ (selections (given.literals.map (renameVars ρ))) = _
  rw [hone]
  refine renameOutcome_map (fun fs => ?_) _
  rw [List.map_map, List.map_map]
  exact List.map_congr_left fun f _ => derivedBy_rename hρ f _ _

/-- **Paramodulation is equivariant.** -/
theorem paramodulants_rename (processed : List Clause) (given : Clause) :
    paramodulants (processed.map (Clause.rename ρ)) (given.rename ρ) =
      renameOutcome ρ (List.map (Clause.rename ρ)) (paramodulants processed given) := by
  rw [paramodulants, paramodulants, collect_map]
  exact collect_renameOutcome fun c _ => Clause.paramodulants_rename hρ c given

/-- **Inference is equivariant.** After an injective renaming, unification has the same
outcome, a unifier or the two propositions where it got stuck, with its variables renamed;
factoring finds the renamed factors, and paramodulation the renamed paramodulants or fails
as it did, all with the same provenance and in the same order. -/
theorem inferences_equivariant :
    (∀ ps : List Proposition,
      mgu (renameVars ρ ps) = renameOutcome ρ (Unifier.rename ρ) (mgu ps)) ∧
    (∀ c : Clause, ∃ fs, c.factors = .ok fs ∧
      (c.rename ρ).factors = .ok (fs.map (Clause.rename ρ))) ∧
    ∀ (processed : List Clause) (given : Clause),
      paramodulants (processed.map (Clause.rename ρ)) (given.rename ρ) =
        renameOutcome ρ (List.map (Clause.rename ρ)) (paramodulants processed given) := by
  refine ⟨mgu_renameVars hρ, fun c => ⟨_, c.factors_eq, ?_⟩, paramodulants_rename hρ⟩
  rw [Clause.factors_rename hρ, c.factors_eq]
  rfl

end

/-- Two variables exchanged. The first of two variables is bound, also where it is the larger. -/
theorem inferences_equivariant_exchanged :
    Function.Injective (Equiv.swap 0 1) ∧
    mgu (renameVars (Equiv.swap 0 1) [.term (.var 0), .term (.var 1)]) =
      .ok ⟨[⟨1, .var 0⟩]⟩ ∧
    (Clause.rename (Equiv.swap 0 1)
        ⟨[.pos ⟨1, [.var 0]⟩, .pos ⟨1, [.app 0 [.var 1]]⟩], .named "c"⟩).factors =
      .ok [⟨[.pos ⟨1, [.app 0 [.var 0]]⟩], .derived .factoring [some "c"]⟩] ∧
    paramodulants
        ([⟨[.pos (.equation (.app 0 [.var 0]) (.app 1 []))], .named "c"⟩].map
          (Clause.rename (Equiv.swap 0 1)))
        (Clause.rename (Equiv.swap 0 1) ⟨[.pos ⟨1, [.app 0 [.var 1]]⟩], .named "d"⟩) =
      .ok [⟨[.pos ⟨1, [.app 1 []]⟩], .derived .paramodulation [some "c", some "d"]⟩,
        ⟨[.pos ⟨1, [.app 0 [.app 1 []]]⟩], .derived .paramodulation [some "c", some "d"]⟩,
        ⟨[.pos ⟨1, [.app 0 [.app 0 [.var 1]]]⟩],
          .derived .paramodulation [some "c", some "d"]⟩] := by
  have hρ : Function.Injective (Equiv.swap 0 1) := (Equiv.swap 0 1).injective
  obtain ⟨hmgu, hfactors, hparamodulants⟩ := inferences_equivariant hρ
  refine ⟨hρ, ?_, ?_, ?_⟩
  · rw [hmgu]
    decide +kernel
  · obtain ⟨fs, hfs, hrenamed⟩ := hfactors
      ⟨[.pos ⟨1, [.var 0]⟩, .pos ⟨1, [.app 0 [.var 1]]⟩], .named "c"⟩
    have hfs' : Clause.factors ⟨[.pos ⟨1, [.var 0]⟩, .pos ⟨1, [.app 0 [.var 1]]⟩], .named "c"⟩ =
        .ok [⟨[.pos ⟨1, [.app 0 [.var 1]]⟩], .derived .factoring [some "c"]⟩] := by
      decide +kernel
    obtain rfl := Except.ok.inj (hfs.symm.trans hfs')
    rw [hrenamed]
    decide +kernel
  · rw [hparamodulants]
    decide +kernel

end Clausal
