/-
Which tautologies are found by their form. A clause that is trivial is valid wherever
equality is identity, and so are all its instances, which are trivial themselves. The
converse fails for clauses with equations: `~(X = Y) | f(X) = f(Y)` is valid and not trivial.
For clauses without equations it holds, and a valid clause is always recognised
(`Clause.isTrivial_tautology`).

The argument is a countermodel. Over the terms themselves, with every function symbol
standing for itself and every variable for its own term, a term is its own value. Among such
interpretations there is one in which exactly the atoms hold that the clause denies, apart
from equations, which hold if their sides are the same. It makes every negative literal of
the clause false, and a positive one can only be true if the clause denies its atom too,
that is, if the clause has a complementary pair (`Clause.isTrivial_of_someHolds`).
-/
import Clausal.Proofs.LiteralSets
import Clausal.Proofs.Tautologies

set_option autoImplicit false

universe u

namespace Clausal

namespace Clause

/-! ## Instances and equal clauses -/

/-- Every instance of a trivial clause is trivial, whichever literals merge in it. -/
theorem isTrivial_subst {c : Clause} (h : c.isTrivial = true) (θ : Nat → Term) :
    (c.subst θ).isTrivial = true := by
  have hmem : ∀ {l : Literal}, l ∈ c.literals → l.subst θ ∈ (c.subst θ).literals :=
    fun hl => mem_make.2 (List.mem_map_of_mem hl)
  rw [isTrivial_iff] at h ⊢
  rcases h with ⟨t, ht⟩ | ⟨a, hpos, hneg⟩
  · exact .inl ⟨t.subst θ, hmem ht⟩
  · exact .inr ⟨a.subst θ, hmem hpos, hmem hneg⟩

/-- Only the set of literals counts. -/
theorem isTrivial_congr {c d : Clause} (h : ∀ l, l ∈ c.literals ↔ l ∈ d.literals) :
    c.isTrivial = d.isTrivial := by
  rw [Bool.eq_iff_iff, isTrivial_iff, isTrivial_iff]
  simp only [h]

/-! ## The countermodel -/

/-- The atoms that hold over the terms: an equation if its sides are the same term, and any
other atom if the clause denies it. -/
def HoldsOverTerms (c : Clause) (a : Atom) : Prop :=
  match a.sides? with
  | some (s, t) => s = t
  | none => .neg a ∈ c.literals

/-- The interpretation over terms in which every function symbol stands for itself. -/
def countermodel (c : Clause) : Interpretation (ULift.{u} Term) where
  function f args := ⟨.app f (args.map ULift.down)⟩
  relation p args := c.HoldsOverTerms ⟨p, args.map ULift.down⟩

/-- Every variable stands for itself. -/
def ownTerm (x : Nat) : ULift.{u} Term := ⟨.var x⟩

variable {c : Clause}

theorem countermodel_isNormal : (countermodel.{u} c).IsNormal := fun _ _ => ULift.down_inj

/-- A term is its own value. -/
theorem eval_countermodel (t : Term) : (countermodel.{u} c).eval ownTerm t = ⟨t⟩ := by
  induction t with
  | var x => rfl
  | app f args ih =>
    have hargs : (args.map ((countermodel.{u} c).eval ownTerm)).map ULift.down = args := by
      rw [List.map_congr_left ih, List.map_map]
      exact List.map_id'' (fun _ => rfl) args
    rw [Interpretation.eval_app]
    exact congrArg (fun ts => ULift.up (Term.app f ts)) hargs

theorem holdsAtom_countermodel (a : Atom) :
    (countermodel.{u} c).HoldsAtom ownTerm a ↔ c.HoldsOverTerms a := by
  have hargs : (a.args.map ((countermodel.{u} c).eval ownTerm)).map ULift.down = a.args := by
    rw [List.map_map]
    exact List.map_id'' (fun t => congrArg ULift.down (eval_countermodel t)) a.args
  show c.HoldsOverTerms ⟨a.pred, (a.args.map ((countermodel.{u} c).eval ownTerm)).map ULift.down⟩ ↔ _
  rw [hargs]

/-- A clause without equations that is true in its countermodel is trivial. -/
theorem isTrivial_of_someHolds (hc : ∀ l ∈ c.literals, l.atom.sides? = none)
    (h : (countermodel.{u} c).SomeHolds ownTerm c.literals) : c.isTrivial = true := by
  obtain ⟨⟨negated, a⟩, hl, hv⟩ := h
  have ha : (countermodel.{u} c).HoldsAtom ownTerm a ↔ .neg a ∈ c.literals := by
    rw [holdsAtom_countermodel, HoldsOverTerms, hc _ hl]
  cases negated with
  | false => exact isTrivial_iff.2 (.inr ⟨a, hl, ha.1 hv⟩)
  | true => exact absurd (ha.2 hl) hv

theorem isTrivial_of_entailsEq (hc : ∀ l ∈ c.literals, l.atom.sides? = none)
    (h : EntailsEq.{u} [] c) : c.isTrivial = true :=
  isTrivial_of_someHolds.{u} hc (h _ _ countermodel_isNormal (by simp) ownTerm)

/-! ## Tautologies -/

/-- **Tautologies by their form.** A trivial clause follows from nothing in the logic with
equality, and every binding leaves it trivial. A clause without equality atoms that follows
from nothing is trivial. And equal clauses are trivial together. -/
theorem isTrivial_tautology :
    (∀ c : Clause, c.isTrivial = true →
      EntailsEq.{u} [] c ∧ ∀ b : Binding, (b.apply c).isTrivial = true) ∧
    (∀ c : Clause, (∀ l ∈ c.literals, l.atom.pred ≠ Atom.equality) →
      EntailsEq.{u} [] c → c.isTrivial = true) ∧
    ∀ c d : Clause, c.Made → d.Made → c.sameLiterals d = true → c.isTrivial = d.isTrivial := by
  refine ⟨fun c h => ⟨fun D _ M hM _ => valid_of_isTrivial hM h, fun b => isTrivial_subst h _⟩,
    fun c hc h => isTrivial_of_entailsEq (fun l hl => ?_) h, fun c d hc hd h => ?_⟩
  · rw [Option.eq_none_iff_forall_ne_some]
    rintro ⟨s, t⟩ hsides
    exact hc l hl (congrArg Atom.pred (Atom.sides?_eq_some_iff.1 hsides))
  · exact isTrivial_congr ((sameLiterals_iff hc.nodup hd.nodup).1 h)

/-- In `p1(X0) | p1(X1) | ~p1(X0)` a binding merges the positive literals, and the clause
remains trivial; with the literals in another order the complement comes first. -/
theorem isTrivial_tautology_merged :
    (ofLiterals [.pos ⟨1, [.var 0]⟩, .pos ⟨1, [.var 1]⟩, .neg ⟨1, [.var 0]⟩]).isTrivial = true ∧
    EntailsEq.{0} [] (ofLiterals [.pos ⟨1, [.var 0]⟩, .pos ⟨1, [.var 1]⟩, .neg ⟨1, [.var 0]⟩]) ∧
    ((Binding.mk 1 (.var 0)).apply
      (ofLiterals [.pos ⟨1, [.var 0]⟩, .pos ⟨1, [.var 1]⟩, .neg ⟨1, [.var 0]⟩])).isTrivial = true ∧
    (ofLiterals [.neg ⟨1, [.var 0]⟩, .pos ⟨1, [.var 1]⟩, .pos ⟨1, [.var 0]⟩]).isTrivial = true ∧
    ¬EntailsEq.{0} [] (ofLiterals [.pos ⟨1, [.var 0]⟩, .neg ⟨1, [.var 1]⟩]) := by
  obtain ⟨hvalid, hcomplete, hequal⟩ := isTrivial_tautology.{0}
  have htrivial : (ofLiterals [.pos ⟨1, [.var 0]⟩, .pos ⟨1, [.var 1]⟩,
      .neg ⟨1, [.var 0]⟩]).isTrivial = true := by decide
  have hother := hequal (ofLiterals [.neg ⟨1, [.var 0]⟩, .pos ⟨1, [.var 1]⟩, .pos ⟨1, [.var 0]⟩])
    (ofLiterals [.pos ⟨1, [.var 0]⟩, .pos ⟨1, [.var 1]⟩, .neg ⟨1, [.var 0]⟩])
    (.make _ _) (.make _ _) (by decide)
  refine ⟨htrivial, (hvalid _ htrivial).1, (hvalid _ htrivial).2 _, hother.trans htrivial,
    fun hentails => ?_⟩
  -- the literals are complements only after a binding
  exact absurd (hcomplete _ (by decide) hentails) (by decide)

/-- With equations, validity is no matter of form. -/
example : EntailsEq.{u} [] (ofLiterals [.neg (.equation (.var 0) (.var 1)),
      .pos (.equation (.app 0 [.var 0]) (.app 0 [.var 1]))]) ∧
    (ofLiterals [.neg (.equation (.var 0) (.var 1)),
      .pos (.equation (.app 0 [.var 0]) (.app 0 [.var 1]))]).isTrivial = false := by
  refine ⟨fun D _ M hM _ v => ?_, by decide⟩
  by_cases hv : v 0 = v 1
  · refine ⟨_, mem_make.2 (List.mem_cons_of_mem _ List.mem_cons_self), ?_⟩
    exact (Interpretation.holdsAtom_equation hM v _ _).2 (by simp [hv])
  · refine ⟨_, mem_make.2 List.mem_cons_self, fun heq => hv ?_⟩
    exact (Interpretation.holdsAtom_equation hM v _ _).1 heq

end Clause

end Clausal
