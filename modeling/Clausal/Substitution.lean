/-
Substitutions. A substitution is a map from variables to terms, and applying it
replaces all variables at once. Everything made of terms carries such an action;
the class `HasSubst` gives the action one name, so that a unifier can be applied
to a term, an atom, a literal, a clause or a list of any of these.

Unification does not produce a map but a sequence of single bindings `x ↦ t`. A
binding is the map that moves `x` only. A `Unifier` is such a sequence, and
applying it means applying its bindings one after the other, the first one
first.
-/
import Clausal.Literal

set_option autoImplicit false

namespace Clausal

/-- Types whose values are built from terms, so that a substitution acts on
them. -/
class HasSubst (α : Type) where
  /-- Replaces every variable by its image, all at once. -/
  subst : (Nat → Term) → α → α

/-! ## The action on terms, atoms and literals -/

/-- Two functions that agree on the members of a list give the same concatenation. -/
private theorem flatMap_eq_of_forall {α β : Type} {f g : α → List β} {l : List α}
    (h : ∀ a ∈ l, f a = g a) : l.flatMap f = l.flatMap g := by
  induction l with
  | nil => rfl
  | cons a l ih => simp_all

namespace Term

mutual

/-- Replaces every variable of a term by its image, all at once. -/
def subst (θ : Nat → Term) : Term → Term
  | .var x => θ x
  | .app f args => .app f (substList θ args)

def substList (θ : Nat → Term) : List Term → List Term
  | [] => []
  | t :: ts => t.subst θ :: substList θ ts

end

/-- The list half is a map. -/
@[simp] theorem substList_eq (θ : Nat → Term) (ts : List Term) :
    substList θ ts = ts.map (subst θ) := by
  induction ts with
  | nil => rfl
  | cons t ts ih => simp [substList, ih]

@[simp] theorem subst_var (θ : Nat → Term) (x : Nat) : (var x).subst θ = θ x := rfl

/-- A substitution passes through function symbols. -/
@[simp] theorem subst_app (θ : Nat → Term) (f : Nat) (args : List Term) :
    (app f args).subst θ = app f (args.map (subst θ)) := by
  simp [subst]

/-- The variables of an instance are those of the images of the variables. -/
theorem vars_subst (θ : Nat → Term) (t : Term) :
    (t.subst θ).vars = t.vars.flatMap fun x => (θ x).vars := by
  induction t with
  | var x => simp
  | app f args ih =>
    simp only [subst_app, vars_app, List.flatMap_map, List.flatMap_assoc]
    exact flatMap_eq_of_forall ih

instance : HasSubst Term := ⟨subst⟩

end Term

/-- Replaces every variable of an atom by its image; the predicate stays. -/
def Atom.subst (θ : Nat → Term) (a : Atom) : Atom := ⟨a.pred, Term.substList θ a.args⟩

instance : HasSubst Atom := ⟨Atom.subst⟩

/-- The variables of an instance of an atom are those of the images of the variables. -/
theorem Atom.vars_subst (θ : Nat → Term) (a : Atom) :
    (a.subst θ).vars = a.vars.flatMap fun x => (θ x).vars := by
  simp only [Atom.vars, Atom.subst, Term.substList_eq, List.flatMap_map, List.flatMap_assoc]
  exact flatMap_eq_of_forall fun t _ => Term.vars_subst θ t

/-- Replaces every variable of a proposition by its image. -/
def Proposition.subst (θ : Nat → Term) : Proposition → Proposition
  | .term t => .term (t.subst θ)
  | .atom a => .atom (a.subst θ)

instance : HasSubst Proposition := ⟨Proposition.subst⟩

/-- The variables of an instance of a proposition are those of the images of the variables. -/
theorem Proposition.vars_subst (θ : Nat → Term) (p : Proposition) :
    (p.subst θ).vars = p.vars.flatMap fun x => (θ x).vars := by
  cases p with
  | term t => exact Term.vars_subst θ t
  | atom a => exact Atom.vars_subst θ a

/-- Replaces every variable of a literal by its image; the sign stays. -/
def Literal.subst (θ : Nat → Term) (l : Literal) : Literal := ⟨l.negated, l.atom.subst θ⟩

instance : HasSubst Literal := ⟨Literal.subst⟩

instance {α : Type} [HasSubst α] : HasSubst (List α) := ⟨fun θ => List.map (HasSubst.subst θ)⟩

/-! ## Bindings -/

/-- The binding of one variable to a term. -/
structure Binding where
  var : Nat
  term : Term
deriving DecidableEq, Inhabited

namespace Binding

/-- The substitution that moves the bound variable and no other. -/
def toSubst (b : Binding) (x : Nat) : Term := if x = b.var then b.term else .var x

@[simp] theorem toSubst_self (b : Binding) : b.toSubst b.var = b.term := if_pos rfl

/-- Any other variable stays where it is. -/
theorem toSubst_of_ne {b : Binding} {x : Nat} (h : x ≠ b.var) : b.toSubst x = .var x := if_neg h

/-- Replaces the bound variable wherever it occurs. -/
def apply {α : Type} [HasSubst α] (b : Binding) (a : α) : α := HasSubst.subst b.toSubst a

/-- The values that appear while bindings are applied in turn, one after each. -/
def trace {α : Type} [HasSubst α] : List Binding → α → List α
  | [], _ => []
  | b :: bs, a => b.apply a :: trace bs (b.apply a)

/-- A variable left over by a binding comes from the term, or was there before
and is not the bound one. -/
theorem mem_vars_toSubst {b : Binding} {x y : Nat} (h : y ∈ (b.toSubst x).vars) :
    y ∈ b.term.vars ∨ y = x ∧ y ≠ b.var := by
  by_cases hx : x = b.var
  · subst hx
    exact .inl (by simpa using h)
  · rw [toSubst_of_ne hx, Term.vars_var, List.mem_singleton] at h
    exact .inr ⟨h, h ▸ hx⟩

end Binding

/-! ## Unifiers -/

/-- A sequence of bindings, each to be applied to what the earlier ones left. -/
structure Unifier where
  bindings : List Binding
deriving DecidableEq, Inhabited

namespace Unifier

/-- The unifier without bindings, which changes nothing. -/
def empty : Unifier := ⟨[]⟩

/-- Adds a binding behind all others. -/
def push (u : Unifier) (b : Binding) : Unifier := ⟨u.bindings ++ [b]⟩

/-- The number of bindings. -/
def size (u : Unifier) : Nat := u.bindings.length

/-- Whether there are no bindings. -/
def isEmpty (u : Unifier) : Bool := u.bindings.isEmpty

/-- Applies the bindings in turn. -/
def apply {α : Type} [HasSubst α] (u : Unifier) (a : α) : α :=
  u.bindings.foldl (fun a b => b.apply a) a

/-- The values that appear while the bindings are applied in turn, one after
each binding. -/
def trace {α : Type} [HasSubst α] (u : Unifier) (a : α) : List α :=
  Binding.trace u.bindings a

@[simp] theorem apply_empty {α : Type} [HasSubst α] (a : α) : empty.apply a = a := rfl

/-- The binding that was added last is applied last. -/
@[simp] theorem apply_push {α : Type} [HasSubst α] (u : Unifier) (b : Binding) (a : α) :
    (u.push b).apply a = b.apply (u.apply a) := by
  simp [apply, push]

end Unifier

end Clausal
