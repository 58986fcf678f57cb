/-
First-order semantics. An interpretation gives every function symbol and every
predicate symbol a meaning over a domain, for each number of arguments on its own,
since a symbol carries no arity. A clause is meant as the universal closure of the
disjunction of its literals: it is valid in an interpretation if some literal of it
holds under every valuation of the variables.

An interpretation is *normal* if it reads equality, applied to two arguments, as
identity. Nothing is asked of malformed equalities with another number of
arguments, nor of any other symbol. What follows from what in the logic with
equality is decided by the normal interpretations alone (`EntailsEq`).

Two lemmas carry all soundness proofs. Substituting and then evaluating is
evaluating under the valuation pulled back along the substitution
(`eval_subst`, and `someHolds_apply` for a whole clause under a unifier). And
replacing a node by a term of the same value changes no value
(`eval_replaceNode`, and `holdsAtom_replaceAt` for atoms).
-/
import Clausal.Position
import Clausal.Proofs.Composition
import Clausal.Proofs.Enumeration

set_option autoImplicit false

universe u

namespace Clausal

/-- Meanings of the function and predicate symbols over a domain. -/
structure Interpretation (D : Type u) where
  function : Nat → List D → D
  relation : Nat → List D → Prop

namespace Interpretation

variable {D : Type u} (M : Interpretation D) (v : Nat → D)

/-! ## Values and truth -/

mutual

/-- The value of a term. -/
def eval : Term → D
  | .var x => v x
  | .app f args => M.function f (evalList args)

/-- The values of an argument list. -/
def evalList : List Term → List D
  | [] => []
  | t :: ts => eval t :: evalList ts

end

@[simp] theorem eval_var (x : Nat) : M.eval v (.var x) = v x := rfl

@[simp] theorem evalList_eq (ts : List Term) : M.evalList v ts = ts.map (M.eval v) := by
  induction ts with
  | nil => rfl
  | cons t ts ih => rw [evalList, ih, List.map_cons]

@[simp] theorem eval_app (f : Nat) (args : List Term) :
    M.eval v (.app f args) = M.function f (args.map (M.eval v)) := by
  rw [eval, evalList_eq]

/-- An atom is true. -/
def HoldsAtom (a : Atom) : Prop := M.relation a.pred (a.args.map (M.eval v))

/-- A literal is true. -/
def Holds (l : Literal) : Prop :=
  if l.negated then ¬M.HoldsAtom v l.atom else M.HoldsAtom v l.atom

/-- A disjunction of literals is true. -/
def SomeHolds (ls : List Literal) : Prop := ∃ l ∈ ls, M.Holds v l

/-- A clause is true under every valuation. -/
def Valid (c : Clause) : Prop := ∀ v : Nat → D, M.SomeHolds v c.literals

/-- Equality of two arguments is identity. -/
def IsNormal : Prop := ∀ a b : D, M.relation Atom.equality [a, b] ↔ a = b

theorem someHolds_cons {l : Literal} {ls : List Literal} :
    M.SomeHolds v (l :: ls) ↔ M.Holds v l ∨ M.SomeHolds v ls := by
  simp only [SomeHolds, List.mem_cons, exists_eq_or_imp]

/-- Only the members of a disjunction count. -/
theorem SomeHolds.mono {M : Interpretation D} {v : Nat → D} {ls ms : List Literal}
    (h : M.SomeHolds v ls) (hsub : ∀ l ∈ ls, l ∈ ms) : M.SomeHolds v ms := by
  obtain ⟨l, hl, hv⟩ := h
  exact ⟨l, hsub l hl, hv⟩

theorem holds_congr {a b : Atom} (h : M.HoldsAtom v a ↔ M.HoldsAtom v b) (negated : Bool) :
    M.Holds v ⟨negated, a⟩ ↔ M.Holds v ⟨negated, b⟩ := by
  unfold Holds
  split
  · exact not_congr h
  · exact h

/-- In a normal interpretation an equation holds if its sides have one value. -/
theorem holdsAtom_equation {M : Interpretation D} (hM : M.IsNormal) (v : Nat → D) (s t : Term) :
    M.HoldsAtom v (.equation s t) ↔ M.eval v s = M.eval v t :=
  hM (M.eval v s) (M.eval v t)

/-! ## Substitution -/

/-- The valuation under which a term has the value that its instance has under
`v`. -/
def pullback (θ : Nat → Term) (x : Nat) : D := M.eval v (θ x)

/-- The value of an instance is that of the term, with the values of the images for its
variables. -/
theorem eval_subst (θ : Nat → Term) (t : Term) :
    M.eval v (t.subst θ) = M.eval (M.pullback v θ) t := by
  induction t with
  | var x => rfl
  | app f args ih =>
    rw [Term.subst_app, eval_app, eval_app, List.map_map]
    congr 1
    exact List.map_congr_left ih

theorem eval_apply (w : Unifier) (t : Term) :
    M.eval v (w.apply t) = M.eval (M.pullback v w.toSubst) t := by
  rw [w.apply_eq_subst]
  exact M.eval_subst v w.toSubst t

theorem holdsAtom_subst (θ : Nat → Term) (a : Atom) :
    M.HoldsAtom v (a.subst θ) ↔ M.HoldsAtom (M.pullback v θ) a := by
  rw [HoldsAtom, HoldsAtom, Atom.subst, Term.substList_eq, List.map_map]
  have : a.args.map (M.eval v ∘ Term.subst θ) = a.args.map (M.eval (M.pullback v θ)) :=
    List.map_congr_left fun t _ => M.eval_subst v θ t
  rw [this]

/-- An instance of a literal holds if the literal does, with the values of the images for its
variables. -/
theorem holds_subst (θ : Nat → Term) (l : Literal) :
    M.Holds v (l.subst θ) ↔ M.Holds (M.pullback v θ) l := by
  unfold Holds
  show (if l.negated then _ else _) ↔ _
  split
  · exact not_congr (M.holdsAtom_subst v θ l.atom)
  · exact M.holdsAtom_subst v θ l.atom

/-- A clause under a unifier says of a valuation what the clause itself says of the
valuation pulled back. -/
theorem someHolds_apply (w : Unifier) (c : Clause) :
    M.SomeHolds v (w.apply c).literals ↔ M.SomeHolds (M.pullback v w.toSubst) c.literals := by
  constructor
  · rintro ⟨_, hl, hv⟩
    obtain ⟨m, hm, rfl⟩ := Clause.mem_literals_apply.1 hl
    rw [w.apply_eq_subst] at hv
    exact ⟨m, hm, (M.holds_subst v _ m).1 hv⟩
  · rintro ⟨m, hm, hv⟩
    refine ⟨w.apply m, Clause.mem_literals_apply.2 ⟨m, hm, rfl⟩, ?_⟩
    rw [w.apply_eq_subst]
    exact (M.holds_subst v _ m).2 hv

/-! ## Replacement -/

/-- The case of argument lists, under the induction hypothesis for their members. -/
private theorem map_eval_of_forall_mem {ts : List Term} {i : Nat} {s r : Term}
    (ih : ∀ t ∈ ts, ∀ {i : Nat}, t.node? i = some s →
      M.eval v (Term.replaceNode r t i) = M.eval v t)
    (h : Term.nodeList? ts i = some s) :
    (Term.replaceNodeList r ts i).map (M.eval v) = ts.map (M.eval v) := by
  induction ts generalizing i with
  | nil => simp [Term.nodeList?] at h
  | cons t ts ihs =>
    rw [Term.nodeList?] at h
    rw [Term.replaceNodeList]
    -- the lookup and the replacement pass the same terms by
    by_cases hi : i < t.size
    · rw [if_pos hi] at h ⊢
      rw [List.map_cons, List.map_cons, ih t List.mem_cons_self h]
    · rw [if_neg hi] at h ⊢
      rw [List.map_cons, List.map_cons,
        ihs (fun t ht => ih t (List.mem_cons_of_mem _ ht)) h]

/-- Replacing a node of a term by a term of the same value does not change its
value. -/
theorem eval_replaceNode {t : Term} {i : Nat} {s r : Term} (h : t.node? i = some s)
    (heq : M.eval v s = M.eval v r) : M.eval v (Term.replaceNode r t i) = M.eval v t := by
  induction t generalizing i with
  | var x =>
    rcases i with _ | i
    · rw [Term.node?, Option.some.injEq] at h
      rw [h, Term.replaceNode, heq]
    · simp [Term.node?] at h
  | app f args ih =>
    rcases i with _ | i
    · rw [Term.node?, Option.some.injEq] at h
      rw [h, Term.replaceNode, heq]
    · rw [Term.node?] at h
      rw [Term.replaceNode, eval_app, eval_app, M.map_eval_of_forall_mem v ih h]

/-- Replacing a node of an argument list by a term of the same value changes none of
the values. -/
theorem map_eval_replaceNodeList {ts : List Term} {i : Nat} {s r : Term}
    (h : Term.nodeList? ts i = some s) (heq : M.eval v s = M.eval v r) :
    (Term.replaceNodeList r ts i).map (M.eval v) = ts.map (M.eval v) :=
  M.map_eval_of_forall_mem v (fun _ _ _ h => M.eval_replaceNode v h heq) h

end Interpretation

/-- A subterm of an atom is a node of its arguments, and those are counted from
one. -/
theorem Atom.subtermAt_eq_ok {a : Atom} {i : Nat} {s : Term} (h : a.subtermAt i = .ok s) :
    Term.nodeList? a.args (i - 1) = some s := by
  rcases i with _ | i
  · exact absurd h (by simp [subtermAt])
  · rw [subtermAt] at h
    split at h
    · next s' hs => rw [Nat.add_sub_cancel, hs, Except.ok.inj h]
    · exact absurd h (by simp)

/-- A replacement that succeeds changes the arguments only. -/
theorem Atom.replaceAt_eq_ok {a b : Atom} {i : Nat} {r : Term} (h : a.replaceAt i r = .ok b) :
    b = ⟨a.pred, Term.replaceNodeList r a.args (i - 1)⟩ := by
  obtain ⟨s, -, h⟩ := bind_eq_ok_iff.1 h
  split at h
  · exact absurd h (by simp [throw, throwThe, MonadExceptOf.throw])
  · exact (Except.ok.inj h).symm

/-- Replacing a subterm of an atom by a term of the same value does not change its
truth. -/
theorem Interpretation.holdsAtom_replaceAt {D : Type u} (M : Interpretation D) (v : Nat → D)
    {a b : Atom} {i : Nat} {s r : Term} (hs : a.subtermAt i = .ok s)
    (hb : a.replaceAt i r = .ok b) (heq : M.eval v s = M.eval v r) :
    M.HoldsAtom v b ↔ M.HoldsAtom v a := by
  rw [Atom.replaceAt_eq_ok hb, HoldsAtom, HoldsAtom,
    M.map_eval_replaceNodeList v (Atom.subtermAt_eq_ok hs) heq]

/-! ## Consequence -/

/-- A clause follows from others in the logic without equality: it is valid in every
interpretation over a nonempty domain in which they are, whatever the interpretation
makes of the equality symbol. -/
def Entails (premises : List Clause) (c : Clause) : Prop :=
  ∀ (D : Type u) [Nonempty D] (M : Interpretation D), (∀ p ∈ premises, M.Valid p) → M.Valid c

/-- A clause follows from others in the logic with equality: it is valid in every
normal interpretation over a nonempty domain in which they are. -/
def EntailsEq (premises : List Clause) (c : Clause) : Prop :=
  ∀ (D : Type u) [Nonempty D] (M : Interpretation D), M.IsNormal →
    (∀ p ∈ premises, M.Valid p) → M.Valid c

/-- There are normal interpretations, so the empty clause follows from nothing. -/
theorem not_entailsEq_empty : ¬EntailsEq.{u} [] (.ofLiterals []) := by
  intro h
  -- one element, with every relation true
  have hvalid := h PUnit ⟨fun _ _ => ⟨⟩, fun _ _ => True⟩ (fun _ _ => by simp) (by simp)
  obtain ⟨l, hl, -⟩ := hvalid fun _ => ⟨⟩
  exact absurd (Clause.mem_make.1 hl) (by simp)

end Clausal
