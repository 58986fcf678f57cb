/-
Lifting: what is drawn from clauses as they stand covers what can be drawn from
their instances.

An inference rule unifies, and then applies the unifier it has found to everything.
A substitution `θ` that makes the same terms equal does not notice this unifier
(`comp_eq_of_mgu_eq_ok`), so seen through `θ` the conclusion looks as if no unifier had
been applied at all (`instances_apply`). That is the whole lifting argument; what a rule
adds to it is which literals it starts from.

A rule may also pass over a replacement that changes nothing. Seen through `θ`, a
replacement changes nothing already if the subterm and the term put in its place have
one image (`Atom.subst_replaced`). Substituting is evaluating in the terms themselves, so
this is the lemma on replacement in an interpretation, read in that one.
-/
import Clausal.Proofs.MostGeneralUnifier
import Clausal.Proofs.Semantics
import Mathlib.Data.Set.Insert

set_option autoImplicit false

namespace Clausal

/-! ## Instances as sets -/

/-- The instances of some literals under a substitution, as a set. -/
def instances (θ : Nat → Term) (ls : List Literal) : Set Literal :=
  {k | ∃ l ∈ ls, l.subst θ = k}

section Instances

variable (θ : Nat → Term)

/-- A literal is among the instances if it is the instance of one of the literals. -/
theorem mem_instances {k : Literal} {ls : List Literal} :
    k ∈ instances θ ls ↔ ∃ l ∈ ls, l.subst θ = k := Iff.rfl

theorem instances_nil : instances θ [] = ∅ := by
  ext k
  simp [mem_instances]

theorem instances_cons (l : Literal) (ls : List Literal) :
    instances θ (l :: ls) = {l.subst θ} ∪ instances θ ls := by
  ext k
  simp only [mem_instances, List.mem_cons, exists_eq_or_imp, Set.mem_union, Set.mem_singleton_iff,
    eq_comm (a := k)]

theorem instances_append (ls ms : List Literal) :
    instances θ (ls ++ ms) = instances θ ls ∪ instances θ ms := by
  ext k
  simp only [mem_instances, List.mem_append, or_and_right, exists_or, Set.mem_union]

variable {θ}

/-- Only the members of a disjunction count. -/
theorem instances_congr {ls ms : List Literal} (h : ∀ l, l ∈ ls ↔ l ∈ ms) :
    instances θ ls = instances θ ms := by
  ext k
  simp only [mem_instances, h]

/-- Removing repetitions makes no difference to the set of instances. -/
theorem instances_make (ls : List Literal) (provenance : Provenance) :
    instances θ (Clause.make ls provenance).literals = instances θ ls :=
  instances_congr fun _ => Clause.mem_make

/-- A substitution that does not notice a unifier sees a clause under it as the clause
itself. -/
theorem instances_apply {u : Unifier} (h : Substitution.comp θ u.toSubst = θ) (c : Clause) :
    instances θ (u.apply c).literals = instances θ c.literals := by
  have hsubst : ∀ m : Literal, (u.apply m).subst θ = m.subst θ := fun m =>
    Unifier.subst_apply_of_comp_eq h m
  ext k
  constructor
  · rintro ⟨_, hl, rfl⟩
    obtain ⟨m, hm, rfl⟩ := Clause.mem_literals_apply.1 hl
    exact ⟨m, hm, (hsubst m).symm⟩
  · rintro ⟨m, hm, rfl⟩
    exact ⟨u.apply m, Clause.mem_literals_apply.2 ⟨m, hm, rfl⟩, hsubst m⟩

end Instances

/-! ## Unifiers of two propositions -/

/-- A pair is unified by what makes its two members equal. -/
theorem unifies_pair {θ : Nat → Term} {p q : Proposition} :
    Unifies θ [p, q] ↔ p.subst θ = q.subst θ := by
  constructor
  · intro h
    exact h.subst_eq (by simp) (by simp)
  · intro h
    refine ⟨q.subst θ, fun r hr => ?_⟩
    rcases List.mem_cons.1 hr with rfl | hr
    · exact h
    · rw [List.mem_singleton.1 hr]

/-- What can be unified is unified, by bindings that no unifier notices. -/
theorem exists_mgu_of_unifies {θ : Nat → Term} {ps : List Proposition} (hθ : Unifies θ ps) :
    ∃ u, mgu ps = .ok u ∧ Substitution.comp θ u.toSubst = θ := by
  obtain ⟨n, v, -, hinv, ⟨-, hu⟩ | ⟨l, r, hs, -⟩⟩ := mgu_ends ps
  · exact ⟨v.unifier, hu, hinv.absorbs θ hθ⟩
  · exact absurd hθ (hinv.not_unifies_of_conflict hs θ)

/-- Terms with a common instance are unified, and the instance is one of the result. -/
theorem Term.exists_unify {θ : Nat → Term} {s t : Term} (h : s.subst θ = t.subst θ) :
    ∃ u, s.unify t = .ok u ∧ Substitution.comp θ u.toSubst = θ :=
  exists_mgu_of_unifies (unifies_pair.2 (congrArg Proposition.term h))

/-- Atoms with a common instance are unified, and the instance is one of the result. -/
theorem Atom.exists_unify {θ : Nat → Term} {a b : Atom} (h : a.subst θ = b.subst θ) :
    ∃ u, a.unify b = .ok u ∧ Substitution.comp θ u.toSubst = θ :=
  exists_mgu_of_unifies (unifies_pair.2 (congrArg Proposition.atom h))

/-- The unifier of two atoms makes them equal. -/
theorem Atom.subst_eq_of_unify {a b : Atom} {u : Unifier} (h : a.unify b = .ok u) :
    a.subst u.toSubst = b.subst u.toSubst :=
  Proposition.atom.inj (unifies_pair.1 (unifies_of_mgu_eq_ok h))

/-! ## Subterms -/

namespace Term

/-- The case of argument lists, under the induction hypothesis for their members. -/
private theorem exists_nodeList?_of_forall_mem {ts : List Term} {i : Nat}
    (ih : ∀ t ∈ ts, ∀ i < t.size, ∃ s, t.node? i = some s) (hi : i < sizeList ts) :
    ∃ s, nodeList? ts i = some s := by
  induction ts generalizing i with
  | nil => simp at hi
  | cons t ts ihs =>
    rw [nodeList?]
    by_cases hlt : i < t.size
    · rw [if_pos hlt]
      exact ih t List.mem_cons_self i hlt
    · rw [if_neg hlt]
      rw [sizeList_cons] at hi
      exact ihs (fun t ht => ih t (List.mem_cons_of_mem _ ht)) (by omega)

/-- Every number below the size is the number of a node. -/
theorem exists_node? (t : Term) : ∀ i < t.size, ∃ s, t.node? i = some s := by
  induction t with
  | var x =>
    intro i hi
    rw [size_var] at hi
    obtain rfl : i = 0 := by omega
    exact ⟨_, rfl⟩
  | app f args ih =>
    intro i hi
    rcases i with _ | i
    · exact ⟨_, rfl⟩
    · rw [size_app] at hi
      exact exists_nodeList?_of_forall_mem ih (by omega)

/-- Every number below the size of a list of terms is that of a node. -/
theorem exists_nodeList? {ts : List Term} {i : Nat} (hi : i < sizeList ts) :
    ∃ s, nodeList? ts i = some s :=
  exists_nodeList?_of_forall_mem (fun t _ => t.exists_node?) hi

end Term

namespace Atom

/-- Every position of an atom but the first is that of a subterm. -/
theorem exists_subtermAt {a : Atom} {p : Nat} (hp : 1 ≤ p) (hlt : p < a.size) :
    ∃ u, a.subtermAt p = .ok u := by
  obtain ⟨i, rfl⟩ : ∃ i, p = i + 1 := ⟨p - 1, by omega⟩
  rw [size] at hlt
  have hi : i < Term.sizeList a.args := by omega
  obtain ⟨s, hs⟩ := Term.exists_nodeList? hi
  exact ⟨s, by rw [subtermAt, hs]⟩

/-- The atom with the subterm at a position replaced, also where this changes
nothing. -/
def replaced (a : Atom) (p : Nat) (r : Term) : Atom :=
  ⟨a.pred, Term.replaceNodeList r a.args (p - 1)⟩

/-- A replacement that changes something succeeds. -/
theorem replaceAt_of_ne {a : Atom} {p : Nat} {u r : Term} (hu : a.subtermAt p = .ok u)
    (hne : u ≠ r) : a.replaceAt p r = .ok (a.replaced p r) := by
  rw [replaceAt, hu]
  exact if_neg hne

end Atom

/-- The literal with the subterm at a position of its atom replaced. -/
def Literal.replaced (l : Literal) (p : Nat) (r : Term) : Literal :=
  ⟨l.negated, l.atom.replaced p r⟩

/-- The terms as an interpretation of the function symbols, with any relations. -/
def Interpretation.terms (relation : Nat → List Term → Prop) : Interpretation Term :=
  ⟨Term.app, relation⟩

/-- In the terms, evaluating is substituting. -/
theorem Interpretation.eval_terms (relation : Nat → List Term → Prop) (θ : Nat → Term)
    (t : Term) : (Interpretation.terms relation).eval θ t = t.subst θ := by
  induction t with
  | var x => rfl
  | app f args ih =>
    rw [eval_app, Term.subst_app]
    exact congrArg (Term.app f) (List.map_congr_left ih)

/-- A replacement goes unnoticed by a substitution that maps the subterm and the term
put in its place alike. -/
theorem Atom.subst_replaced {a : Atom} {p : Nat} {u r : Term} {θ : Nat → Term}
    (hu : a.subtermAt p = .ok u) (heq : u.subst θ = r.subst θ) :
    (a.replaced p r).subst θ = a.subst θ := by
  let M := Interpretation.terms fun _ _ => True
  have hM : M.eval θ = Term.subst θ := funext fun t => Interpretation.eval_terms _ θ t
  have hargs := M.map_eval_replaceNodeList (v := θ) (r := r) (Atom.subtermAt_eq_ok hu)
    (by rw [hM, heq])
  rw [hM] at hargs
  rw [Atom.subst, Atom.subst, Atom.replaced, Term.substList_eq, Term.substList_eq, hargs]

/-- Replacing a subterm by a term with the same instance leaves the instance of the literal as it
is. -/
theorem Literal.subst_replaced {l : Literal} {p : Nat} {u r : Term} {θ : Nat → Term}
    (hu : l.atom.subtermAt p = .ok u) (heq : u.subst θ = r.subst θ) :
    (l.replaced p r).subst θ = l.subst θ :=
  congrArg (Literal.mk l.negated) (Atom.subst_replaced hu heq)

end Clausal
