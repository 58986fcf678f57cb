/-
Substitutions compose, and a unifier is one substitution.

A `Unifier` is a sequence of bindings that are applied one after the other, while
the theory of unification speaks of maps from variables to terms that act all at
once. This file joins the two. Everything made of terms obeys two laws, collected
in `LawfulSubst`: the variables themselves are the identity, and applying one
substitution after another is applying their composite. From the laws alone
`Unifier.apply_eq_subst` shows that a unifier acts as the map `Unifier.toSubst`,
which sends each variable to what the bindings make of it.

Clauses are not lawful in this sense, because substituting into a clause also
merges its literals. What they satisfy instead is said of their members
(`Clause.mem_literals_apply`), or of a clause as it is made from literals: merging once in
the end is as good as merging after every binding (`Clause.apply_make`).

The second half is the observation behind most general unifiers. A substitution
that already maps a bound variable and the term it is bound to alike does not
notice the binding (`Substitution.comp_binding_of_eq`), and what goes unnoticed
binding by binding goes unnoticed as a whole (`Unifier.comp_push`).
-/
import Clausal.Clause
import Clausal.Proofs.FirstOccurrences
import Mathlib.Data.List.Induction

set_option autoImplicit false

namespace Clausal

/-! ## Composition -/

/-- The substitution that acts like `σ` first and `θ` after it. -/
def Substitution.comp (θ σ : Nat → Term) (x : Nat) : Term := (σ x).subst θ

/-- Types on which substitutions act lawfully. -/
class LawfulSubst (α : Type) [HasSubst α] : Prop where
  /-- Replacing every variable by itself changes nothing. -/
  subst_var : ∀ a : α, HasSubst.subst Term.var a = a
  /-- Two substitutions in turn are one. -/
  subst_subst : ∀ (θ σ : Nat → Term) (a : α),
    HasSubst.subst θ (HasSubst.subst σ a) = HasSubst.subst (Substitution.comp θ σ) a

namespace Term

/-- Replacing every variable by itself changes nothing. -/
theorem subst_id (t : Term) : t.subst var = t := by
  induction t with
  | var x => rfl
  | app f args ih =>
    rw [subst_app]
    congr 1
    calc args.map (subst var) = args.map id := List.map_congr_left ih
      _ = args := List.map_id args

/-- One substitution after another is their composition. -/
theorem subst_subst (θ σ : Nat → Term) (t : Term) :
    (t.subst σ).subst θ = t.subst (Substitution.comp θ σ) := by
  induction t with
  | var x => rfl
  | app f args ih =>
    rw [subst_app, subst_app, subst_app, List.map_map]
    congr 1
    exact List.map_congr_left ih

instance : LawfulSubst Term := ⟨subst_id, subst_subst⟩

end Term

instance {α : Type} [HasSubst α] [LawfulSubst α] : LawfulSubst (List α) where
  subst_var l := by
    calc l.map (HasSubst.subst Term.var) = l.map id :=
          List.map_congr_left fun a _ => LawfulSubst.subst_var a
      _ = l := List.map_id l
  subst_subst θ σ l := by
    show (l.map (HasSubst.subst σ)).map (HasSubst.subst θ) = l.map (HasSubst.subst _)
    rw [List.map_map]
    exact List.map_congr_left fun a _ => LawfulSubst.subst_subst θ σ a

/-- The instance of an atom, with its arguments as one list. -/
theorem Atom.subst_eq (θ : Nat → Term) (a : Atom) :
    a.subst θ = ⟨a.pred, HasSubst.subst θ a.args⟩ := by
  rw [Atom.subst, Term.substList_eq]
  rfl

instance : LawfulSubst Atom where
  subst_var a := by
    show a.subst Term.var = a
    rw [Atom.subst_eq, LawfulSubst.subst_var]
  subst_subst θ σ a := by
    show (a.subst σ).subst θ = a.subst _
    rw [Atom.subst_eq, Atom.subst_eq, Atom.subst_eq, LawfulSubst.subst_subst]

instance : LawfulSubst Proposition where
  subst_var
    | .term t => congrArg Proposition.term (LawfulSubst.subst_var t)
    | .atom a => congrArg Proposition.atom (LawfulSubst.subst_var a)
  subst_subst θ σ
    | .term t => congrArg Proposition.term (LawfulSubst.subst_subst θ σ t)
    | .atom a => congrArg Proposition.atom (LawfulSubst.subst_subst θ σ a)

instance : LawfulSubst Literal where
  subst_var l := congrArg (Literal.mk l.negated) (LawfulSubst.subst_var l.atom)
  subst_subst θ σ l := congrArg (Literal.mk l.negated) (LawfulSubst.subst_subst θ σ l.atom)

namespace Substitution

/-- Composition is associative. -/
theorem comp_assoc (θ σ τ : Nat → Term) : comp θ (comp σ τ) = comp (comp θ σ) τ := by
  funext x
  exact Term.subst_subst θ σ (τ x)

/-- A substitution that maps a bound variable and its term alike does not notice
the binding. -/
theorem comp_binding_of_eq {θ : Nat → Term} {b : Binding} (h : θ b.var = b.term.subst θ) :
    comp θ b.toSubst = θ := by
  funext x
  rw [comp]
  by_cases hx : x = b.var
  · -- the only variable the binding replaces, and its term has the image it had
    rw [hx, b.toSubst_self, h]
  · rw [Binding.toSubst_of_ne hx, Term.subst_var]

end Substitution

/-! ## A unifier as one substitution -/

namespace Unifier

/-- The substitution that sends each variable to what the bindings make of it. -/
def toSubst (u : Unifier) (x : Nat) : Term := u.apply (.var x)

/-- Induction on a unifier from its first binding to its last. -/
@[elab_as_elim]
theorem push_induction {motive : Unifier → Prop} (empty : motive .empty)
    (push : ∀ u b, motive u → motive (u.push b)) (u : Unifier) : motive u := by
  obtain ⟨bindings⟩ := u
  induction bindings using List.reverseRecOn with
  | nil => exact empty
  | append_singleton bindings b ih => exact push ⟨bindings⟩ b ih

/-- A further binding is composed behind all that has been bound. -/
theorem toSubst_push (u : Unifier) (b : Binding) :
    (u.push b).toSubst = Substitution.comp b.toSubst u.toSubst := by
  funext x
  exact apply_push u b _

/-- Applying the bindings in turn is applying one substitution. -/
theorem apply_eq_subst {α : Type} [HasSubst α] [LawfulSubst α] (u : Unifier) (a : α) :
    u.apply a = HasSubst.subst u.toSubst a := by
  induction u using push_induction with
  | empty => exact (LawfulSubst.subst_var a).symm
  | push u b ih => rw [apply_push, ih, toSubst_push, Binding.apply, LawfulSubst.subst_subst]

/-- A substitution that absorbs the bindings so far absorbs one more, if it makes its variable
equal to its term. -/
theorem comp_push {θ : Nat → Term} {u : Unifier} {b : Binding}
    (hu : Substitution.comp θ u.toSubst = θ) (hb : θ b.var = b.term.subst θ) :
    Substitution.comp θ (u.push b).toSubst = θ := by
  rw [toSubst_push, Substitution.comp_assoc, Substitution.comp_binding_of_eq hb, hu]

/-- A substitution that does not notice a unifier maps everything as it does after
the unifier. -/
theorem subst_apply_of_comp_eq {α : Type} [HasSubst α] [LawfulSubst α] {θ : Nat → Term}
    {u : Unifier} (h : Substitution.comp θ u.toSubst = θ) (a : α) :
    HasSubst.subst θ (u.apply a) = HasSubst.subst θ a := by
  rw [apply_eq_subst, LawfulSubst.subst_subst, h]

end Unifier

/-- Merging aside, a binding acts on a clause literal by literal. -/
theorem Clause.mem_literals_bind {b : Binding} {c : Clause} {l : Literal} :
    l ∈ (b.apply c).literals ↔ ∃ m ∈ c.literals, b.apply m = l := by
  rw [Binding.apply, ← List.mem_map]
  exact Clause.mem_make

/-- So does a unifier. -/
theorem Clause.mem_literals_apply {u : Unifier} {c : Clause} {l : Literal} :
    l ∈ (u.apply c).literals ↔ ∃ m ∈ c.literals, u.apply m = l := by
  -- binding by binding, since each of them merges literals on its own
  induction u using Unifier.push_induction generalizing l with
  | empty => simp
  | push u b ih =>
    rw [Unifier.apply_push, mem_literals_bind]
    constructor
    · rintro ⟨_, hm, rfl⟩
      obtain ⟨k, hk, rfl⟩ := ih.1 hm
      exact ⟨k, hk, Unifier.apply_push u b k⟩
    · rintro ⟨k, hk, rfl⟩
      exact ⟨u.apply k, ih.2 ⟨k, hk, rfl⟩, (Unifier.apply_push u b k).symm⟩

/-- A clause that is made and then bound is the clause made of the bound literals, since
repetitions are removed again. -/
theorem Clause.bind_make (b : Binding) (ls : List Literal) (provenance : Provenance) :
    b.apply (make ls provenance) = make (ls.map b.apply) provenance :=
  congrArg (Clause.mk · provenance) (eraseDups_map_eraseDups _ ls)

/-- Literals without repetition make a clause as they are. -/
theorem Clause.make_of_nodup {ls : List Literal} (h : ls.Nodup) (provenance : Provenance) :
    make ls provenance = ⟨ls, provenance⟩ :=
  congrArg (Clause.mk · provenance) (eraseDups_of_nodup h)

/-- The literals that merge on the way merge in the end as well, and the first of them is
kept either way. -/
theorem Clause.apply_make (u : Unifier) (ls : List Literal) (provenance : Provenance) :
    u.apply (make ls provenance) = make (ls.map u.apply) provenance := by
  induction u using Unifier.push_induction with
  | empty => rw [Unifier.apply_empty, show Unifier.empty.apply = id from rfl, List.map_id]
  | push u b ih =>
    have hpush : ls.map (u.push b).apply = (ls.map u.apply).map b.apply := by
      rw [List.map_map]
      exact List.map_congr_left fun l _ => Unifier.apply_push u b l
    rw [Unifier.apply_push, ih, bind_make, hpush]

end Clausal
